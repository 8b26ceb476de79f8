import GoEthereum.Trie.Trie

/-!
# Hashing and committing a trie

`trie/hasher.go`, `trie/committer.go`, `trie/trienode/node.go` and the methods
`Hash` and `Commit` of the trie. The hasher fills the hash caches of the nodes it
walks over, so it returns them with what it computed. It hashes the children of a
branch side by side when there were many changes; they do not share anything, and
the result is that of the loop.

The committer takes the nodes apart: it compacts the keys in place and replaces
children by what it made of them, so what it leaves is a collapsed node.
-/

namespace GoEthereum.Trie

/-- An in-memory node as `encode` sees it: the key is written as it is. -/
def Node.raw : Node → Collapsed
  | .nil => .nil
  | .value v => .value v
  | .hash h => .hash h
  | .short k val _ => .short (k.map fun d => UInt8.ofNat d.val) val.raw
  | .full children _ => .full fun i => (children i).raw

section Hash

variable (keccak : Bytes → Hash)

/-- `shortnodeToHash` and `fullnodeToHash`. -/
def nodeToHash (n : Collapsed) (force : Bool) : Collapsed :=
  if n.encode.length < 32 ∧ force = false then n else .hash (keccak n.encode)

/-- The cache a node gets from what it was collapsed to. -/
def hashedFlags (f : NodeFlag) : Collapsed → NodeFlag
  | .hash h => { f with hash := some h }
  | _ => { f with hash := none }

/-- `(*hasher).hash`, with `hashShortNodeChildren` and `hashFullNodeChildren`: what
the node collapses to, and the node. -/
def hash : Node → Bool → Collapsed × Node
  | .nil, _ => (.nil, .nil)
  | .value v, _ => (.value v, .value v)
  | .hash h, _ => (.hash h, .hash h)
  | .short k val f, force =>
    match f.hash with
    | some h => (.hash h, .short k val f)
    | none =>
      let child := hash val false
      let hashed := nodeToHash keccak (.short (hexToCompact k) child.1) force
      (hashed, .short k child.2 (hashedFlags f hashed))
  | .full children f, force =>
    match f.hash with
    | some h => (.hash h, .full children f)
    | none =>
      let hashed := nodeToHash keccak (.full fun i =>
          if i = term then (children i).raw
          -- nilValueNode
          else if (children i).isNil then .value []
          else (hash (children i) false).1) force
      (hashed, .full (fun i => if i = term then children i else (hash (children i) false).2)
          (hashedFlags f hashed))

def hashRoot (t : Trie) : Trie × Collapsed :=
  match t.root with
  | .nil => (t, .hash emptyRootHash)
  | root =>
    let hashed := hash keccak root true
    ({ t with root := hashed.2, unhashed := 0 }, hashed.1)

/-- `Hash`; `hashRoot` always returns a hash node. -/
def rootHash (t : Trie) : Trie × Hash :=
  match hashRoot keccak t with
  | (t, .hash h) => (t, h)
  | (t, _) => (t, zeroHash)

/-- A node without its hash caches. -/
def Node.strip : Node → Node
  | .short k val _ => .short k val.strip newFlag
  | .full children _ => .full (fun i => (children i).strip) newFlag
  | n => n

/-- The root hash computed from scratch, with no cached hash. -/
def rehash (t : Trie) : Hash := (rootHash keccak { t with root := t.root.strip }).2

end Hash

/-! ## Node sets -/

/-- `trienode.Node`; an empty blob marks a deletion. -/
structure SetNode where
  hash : Hash
  blob : Bytes
deriving DecidableEq

/-- `IsDeleted`. -/
def SetNode.isDeleted (n : SetNode) : Bool := n.blob.isEmpty

/-- `NewDeleted`. -/
def newDeleted : SetNode where
  hash := zeroHash
  blob := []

/-- `trienode.NodeSet`, of one owner; `leaves` are pairs of a blob and the hash of its
parent. -/
structure NodeSet where
  leaves : List (Bytes × Hash)
  nodes : Path → Option SetNode
  updates : Nat
  deletes : Nat

/-- `NewNodeSet`. -/
def newNodeSet : NodeSet where
  leaves := []
  nodes := fun _ => none
  updates := 0
  deletes := 0

namespace NodeSet

/-- `AddNode`. -/
def addNode (set : NodeSet) (path : Path) (n : SetNode) : NodeSet :=
  { set with
    nodes := Function.update set.nodes path (some n)
    updates := if n.isDeleted then set.updates else set.updates + 1
    deletes := if n.isDeleted then set.deletes + 1 else set.deletes }

/-- `AddLeaf`. -/
def addLeaf (set : NodeSet) (parent : Hash) (blob : Bytes) : NodeSet :=
  { set with leaves := set.leaves ++ [(blob, parent)] }

/-- `MergeSet`, for sets of one owner. -/
def mergeSet (set other : NodeSet) : NodeSet where
  leaves := set.leaves ++ other.leaves
  nodes := fun path => (other.nodes path).or (set.nodes path)
  updates := set.updates + other.updates
  deletes := set.deletes + other.deletes

/-- The loop that adds a deletion for every path of a set, in whatever order. -/
def addDeleted (set : NodeSet) (paths : Finset Path) : NodeSet :=
  { set with
    nodes := fun path => if path ∈ paths then some newDeleted else set.nodes path
    deletes := set.deletes + paths.card }

end NodeSet

/-! ## The committer -/

/-- How the committer walks over the children of the root: one after another, or each
with a node set of its own, merged in the order in which they finish. -/
inductive Schedule where
  | sequential
  | parallel (order : List Nibble)

section Commit

variable (tr : Tracer) (collectLeaf : Bool)

/-- `store`, for a node with a given cached hash. -/
def store (set : NodeSet) (path : Path) (cached : Option Hash) (n : Collapsed) :
    NodeSet × Collapsed :=
  match cached with
  | none =>
    (if (tr.accessList path).isSome then set.addNode path newDeleted else set, n)
  | some h =>
    let set := set.addNode path { hash := h, blob := n.encode }
    let set :=
      match n with
      | .short _ (.value val) => if collectLeaf then set.addLeaf h val else set
      | _ => set
    (set, .hash h)

/-- A child that the committer passes by: none, or a hash. -/
def Node.Skipped (n : Node) : Prop := n = .nil ∨ ∃ h, n = .hash h

/-- The loop of `commitChildren` without threads. -/
def commitLoop (commit : Nibble → NodeSet → Option (NodeSet × Collapsed))
    (children : Nibble → Node) (set : NodeSet) (cs : Nibble → Collapsed) :
    List Nibble → Option (NodeSet × (Nibble → Collapsed))
  | [] => some (set, cs)
  | i :: is =>
    match children i with
    | .nil => commitLoop commit children set cs is
    | .hash _ => commitLoop commit children set cs is
    | _ =>
      match commit i set with
      | none => none
      | some (set, c) => commitLoop commit children set (Function.update cs i c) is

/-- The first sixteen indices of a full node. -/
def childSlots : List Nibble := (List.finRange 16).map Fin.castSucc

def Node.isFull : Node → Bool
  | .full _ _ => true
  | _ => false

/-- The cached hash of a node that need not be written. -/
def cleanHash (f : NodeFlag) : Option Hash := if f.dirty then none else f.hash

/-- `commit` below the root, and at the root without threads; `none` is the panic on a
value or nil. -/
def commit : Path → Node → NodeSet → Option (NodeSet × Collapsed)
  | _, .nil, _ => none
  | _, .value _, _ => none
  | _, .hash h, set => some (set, .hash h)
  | path, .short k val f, set =>
    match cleanHash f with
    | some h => some (set, .hash h)
    | none =>
      match if val.isFull then commit (path ++ k) val set else some (set, val.raw) with
      | none => none
      | some (set, c) =>
        some (store tr collectLeaf set path f.hash (.short (hexToCompact k) c))
  | path, .full children f, set =>
    match cleanHash f with
    | some h => some (set, .hash h)
    | none =>
      match commitLoop (fun i set => commit (path ++ [i]) (children i) set) children set
        (fun i => (children i).raw) childSlots with
      | none => none
      | some (set, cs) => some (store tr collectLeaf set path f.hash (.full cs))

/-- `commit` at the root. With threads, every child of a branch at the root is
committed into an empty set, and the sets are merged. -/
def commitRoot (schedule : Schedule) (n : Node) (set : NodeSet) : Option (NodeSet × Collapsed) :=
  match schedule, n with
  | .parallel order, .full children f =>
    match cleanHash f with
    | some h => some (set, .hash h)
    | none =>
      match commitLoop (fun i set =>
          match commit tr collectLeaf [i] (children i) newNodeSet with
          | none => none
          | some (childSet, c) => some (set.mergeSet childSet, c))
        children set (fun i => (children i).raw) order with
      | none => none
      | some (set, cs) => some (store tr collectLeaf set [] f.hash (.full cs))
  | _, n => commit tr collectLeaf [] n set

end Commit

/-- `Commit` with a given schedule for the committer: the root hash and the node set. -/
def commitWith (keccak : Bytes → Hash) (schedule : Schedule) (t : Trie) (collectLeaf : Bool) :
    Trie × Option (Hash × Option NodeSet) :=
  match t.root with
  | .nil =>
    let paths := t.tracer.deletedNodes
    ({ t with committed := true }, if paths = ∅ then some (emptyRootHash, none)
      else some (emptyRootHash, some (newNodeSet.addDeleted paths)))
  | _ =>
    match rootHash keccak t with
    | (t, rootHash) =>
      match t.root.cache with
      | (hashedNode, false) =>
        ({ t with
            root := match hashedNode with
              | some h => .hash h
              | none => .nil
            committed := true }, some (rootHash, none))
      | (_, true) =>
        match commitRoot t.tracer collectLeaf schedule t.root
          (newNodeSet.addDeleted t.tracer.deletedNodes) with
        | none => ({ t with committed := true }, none)
        | some (nodes, c) =>
          ({ t with
              root := match c with
                | .hash h => .hash h
                | _ => .nil
              uncommitted := 0
              committed := true }, some (rootHash, some nodes))

/-- `Commit`. More than 100 changes are committed with threads, which finish in the given
order. -/
def Commit (keccak : Bytes → Hash) (order : List Nibble) (t : Trie) (collectLeaf : Bool) :
    Trie × Option (Hash × Option NodeSet) :=
  commitWith keccak (if 100 < t.uncommitted then .parallel order else .sequential) t
    collectLeaf

end GoEthereum.Trie

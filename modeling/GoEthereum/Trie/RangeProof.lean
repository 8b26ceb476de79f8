import GoEthereum.Lib.Radix.Cut
import GoEthereum.Trie.Proof
import GoEthereum.Trie.StackTrie

/-!
# Range proofs

`VerifyRangeProof` of `trie/proof.go` and what it uses. It turns the proofs of the two
edge keys into the paths of a trie, removes what lies between them, puts the given
entries in and compares the root hash. Go links the resolved nodes and empties slots in
place; a function that does so returns here the node as it is afterwards, and how a
node is removed from its parent depends on what that is. The loops that follow hashes
are given a bound.

`bytes.Compare` and `bytes.HasPrefix` on keys are the order of lists and `<+:`.
-/

namespace GoEthereum.Trie

/-- `bytes.Compare`. -/
def bytesCompare (a b : Path) : Ordering := if a < b then .lt else if b < a then .gt else .eq

/-! ## Edge paths -/

/-- `resolveNode` of `proofToPath`. -/
def resolveNode (db : ProofDb) (hash : Hash) : Except ProofErr Node :=
  match db hash with
  | none => .error (.missing hash)
  | some buf =>
    match decodeNode (some hash) buf with
    | .error e => .error (.bad e)
    | .ok n => .ok n

/-- Link the parent and child. -/
def linkChild : (parent : Node) → (key : Path) → (child : Node) → Except ProofErr Node
  | .short k _ f, _, child => .ok (.short k child f)
  | .full children f, a :: _, child => .ok (.full (Function.update children a child) f)
  | _, _, _ => .error .panic

/-- The loop of `proofToPath`: the parent with the nodes that were resolved below it, and
the value at the end of the key. -/
def pathLoop (db : ProofDb) (allowNonExistent : Bool) :
    Nat → Node → Path → Except ProofErr (Node × Option Bytes)
  | 0, _, _ => .error .fuel
  | fuel + 1, parent, key =>
    match Proof.get parent key false with
    | none => .error .panic
    | some (_, .nil) =>
      if allowNonExistent then .ok (parent, none) else .error .notContained
    | some (keyrest, child) =>
      let follow : Node → Except ProofErr (Node × Option Bytes) := fun child =>
        match pathLoop db allowNonExistent fuel child keyrest with
        | .error e => .error e
        | .ok (child, valnode) =>
          match linkChild parent key child with
          | .error e => .error e
          | .ok parent => .ok (parent, valnode)
      match child with
      | .hash h =>
        match resolveNode db h with
        | .error e => .error e
        | .ok child => follow child
      | .value v =>
        match linkChild parent key (.value v) with
        | .error e => .error e
        | .ok parent =>
          if 0 < v.length then .ok (parent, some v)
          -- the next round finds the same value, below no node
          else .error .panic
      | child => follow child

/-- `proofToPath`; no root is a nil one. -/
def proofToPath (fuel : Nat) (rootHash : Hash) (root : Option Node) (key : Bytes) (db : ProofDb)
    (allowNonExistent : Bool) : Except ProofErr (Node × Option Bytes) :=
  match root with
  | some root => pathLoop db allowNonExistent fuel root (keybytesToHex key)
  | none =>
    match resolveNode db rootHash with
    | .error e => .error e
    | .ok root => pathLoop db allowNonExistent fuel root (keybytesToHex key)

/-! ## Removing what is inside -/

/-- The loop of `unset` that empties the slots of a branch on one side of an index. -/
def clearSide (removeLeft : Bool) (a : Nibble) (children : Nibble → Node) (i : Nibble) : Node :=
  if removeLeft then if i < a then .nil else children i
  else if a < i ∧ i < term then .nil
  else children i

/-- `unset`: what becomes of a child, `none` is a panic. A short node can only be removed
from a branch. -/
def unset (removeLeft : Bool) : Node → Path → (parentIsFull : Bool) → Option Node
  | .full _ _, [], _ => none
  | .full children _, a :: key, _ =>
    match unset removeLeft (children a) key true with
    | none => none
    | some child =>
      some (.full (Function.update (clearSide removeLeft a children) a child) newFlag)
  | .short k val f, key, parentIsFull =>
    let remove := if parentIsFull then some Node.nil else none
    if ¬ k <+: key then
      if removeLeft then if k < key then remove else some (.short k val f)
      else if key < k then remove
      else some (.short k val f)
    else
      match val with
      | .value _ => remove
      | val =>
        match unset removeLeft val (key.drop k.length) false with
        | none => none
        | some child => some (.short k child newFlag)
  | .nil, _, _ => some .nil
  -- hashNode, valueNode
  | .hash _, _, _ => none
  | .value _, _, _ => none

/-- What `parent` is in `unsetInternal`. -/
inductive Parent where
  | none
  | short
  | full
deriving DecidableEq

/-- How `unsetInternal` removes the short node at the fork: as the whole trie, or from the
branch above it. -/
def removeFork (n : Node) : Parent → Except ProofErr (Node × Bool)
  | .none => .ok (n, true)
  | .full => .ok (.nil, false)
  | .short => .error .panic

/-- A short node at the fork that one of the keys passes: a leaf is removed, otherwise its
child is unset along that key. -/
def unsetEdge (removeLeft : Bool) (k : Path) (val : Node) (key : Path) (parent : Parent) :
    Except ProofErr (Node × Bool) :=
  match val with
  | .value _ => removeFork (.short k val newFlag) parent
  | val =>
    match unset removeLeft val (key.drop k.length) false with
    | none => .error .panic
    | some child => .ok (.short k child newFlag, false)

/-- `leftnode != rightnode`: the children for two indices are the same when the indices
are; comparing two hashes or two values is a panic. -/
def sameChild (children : Nibble → Node) (a b : Nibble) : Option Bool :=
  match children a, children b with
  | .hash _, .hash _ => none
  | .value _, .value _ => none
  | _, _ => some (decide (a = b))

/-- A branch at the fork: the slots between the keys are emptied, and the two children are
unset along the keys. -/
def unsetFork (children : Nibble → Node) (a : Nibble) (left : Path) (b : Nibble)
    (right : Path) : Except ProofErr (Node × Bool) :=
  let cleared := fun i => if a < i ∧ i < b then .nil else children i
  match unset false (cleared a) left true with
  | none => .error .panic
  | some child =>
    let cleared := Function.update cleared a child
    match unset true (cleared b) right true with
    | none => .error .panic
    | some child => .ok (.full (Function.update cleared b child) newFlag, false)

/-- `unsetInternal`: the node that is left, and whether the whole trie is to be removed. -/
def unsetInternal : Node → (left right : Path) → Parent → Except ProofErr (Node × Bool)
  | .short k val _, left, right, parent =>
    let shortForkLeft := bytesCompare (left.take k.length) k
    let shortForkRight := bytesCompare (right.take k.length) k
    if shortForkLeft = .eq ∧ shortForkRight = .eq then
      match unsetInternal val (left.drop k.length) (right.drop k.length) .short with
      | .error e => .error e
      | .ok (val, empty) => .ok (.short k val newFlag, empty)
    else if shortForkLeft = .lt ∧ shortForkRight = .lt then .error .emptyRange
    else if shortForkLeft = .gt ∧ shortForkRight = .gt then .error .emptyRange
    else if shortForkLeft ≠ .eq ∧ shortForkRight ≠ .eq then
      removeFork (.short k val newFlag) parent
    else if shortForkRight ≠ .eq then unsetEdge false k val left parent
    else unsetEdge true k val right parent
  | .full children _, a :: left, b :: right, _ =>
    if (children a).isNil ∨ (children b).isNil then unsetFork children a left b right
    else
      match sameChild children a b with
      | none => .error .panic
      | some false => unsetFork children a left b right
      | some true =>
        match unsetInternal (children a) left right .full with
        | .error e => .error e
        | .ok (child, empty) =>
          .ok (.full (Function.update children a child) newFlag, empty)
  | .full _ _, _, _, _ => .error .panic
  | .nil, _, _, _ => .error .panic
  | .hash _, _, _, _ => .error .panic
  | .value _, _, _, _ => .error .panic

/-! ## More elements -/

/-- `hasRightElement`; `none` is a panic. -/
def hasRightElement : Node → Path → Option Bool
  | .nil, _ => some false
  | .value _, _ => some false
  | .hash _, _ => none
  | .full _ _, [] => none
  | .full children _, a :: key =>
    if childSlots.any fun i => decide (a < i) && !(children i).isNil then some true
    else hasRightElement (children a) key
  | .short k val _, key =>
    if ¬ k <+: key then some (decide (key < k)) else hasRightElement val (key.drop k.length)

/-! ## `VerifyRangeProof` -/

/-- The checks on the batch: increasing, not expanding down prefix-paths, no deletions. -/
def checkBatch : List Bytes → List Bytes → Except ProofErr Unit
  | key :: keys, value :: values =>
    let next : Except ProofErr Unit :=
      match keys with
      | [] => .ok ()
      | key' :: _ =>
        if ¬ key < key' then .error .notIncreasing
        else if key <+: key' then .error .pathPrefixes
        else .ok ()
    match next with
    | .error e => .error e
    | .ok () => if value.isEmpty then .error .deletion else checkBatch keys values
  | _, _ => .ok ()

section Verify

variable (keccak : Bytes → Hash)

/-- The updates of the stack trie; their errors are dropped. -/
def stackAll (tr : StackTrie) : List (Bytes × Bytes) → Except ProofErr StackTrie
  | [] => .ok tr
  | (key, v) :: pairs =>
    match tr.Update keccak key v with
    | .error .panic => .error .panic
    | .error _ => stackAll tr pairs
    | .ok tr => stackAll tr pairs

/-- The updates of the trie; their errors are dropped. -/
def updateEach (tr : Trie) : List (Bytes × Bytes) → Except ProofErr Trie
  | [] => .ok tr
  | (key, v) :: pairs =>
    match tr.Update key v with
    | (_, .error .panic) => .error .panic
    | (_, .error .fuel) => .error .fuel
    | (tr, .error _) => updateEach tr pairs
    | (tr, .ok ()) => updateEach tr pairs

/-- The trie `VerifyRangeProof` builds from two edge paths and the entries. -/
def rebuild (fuel : Nat) (rootHash : Hash) (firstKey lastKey : Bytes)
    (pairs : List (Bytes × Bytes)) (proof : ProofDb) : Except ProofErr Trie :=
  match proofToPath fuel rootHash none firstKey proof true with
  | .error e => .error e
  | .ok (root, _) =>
    match proofToPath fuel rootHash (some root) lastKey proof true with
    | .error e => .error e
    | .ok (root, _) =>
      match unsetInternal root (keybytesToHex firstKey) (keybytesToHex lastKey) .none with
      | .error e => .error e
      | .ok (root, empty) =>
        -- the reader is `newEmptyReader`
        updateEach { newEmpty with root := if empty then .nil else root } pairs

/-- The end: the flag for more elements. -/
def moreElements (root : Node) (key : Bytes) : Except ProofErr Bool :=
  match hasRightElement root (keybytesToHex key) with
  | none => .error .panic
  | some more => .ok more

/-- `VerifyRangeProof`; a nil proof is `none`. -/
def VerifyRangeProof (fuel : Nat) (rootHash : Hash) (firstKey : Bytes) (keys values : List Bytes)
    (proof : Option ProofDb) : Except ProofErr Bool :=
  if keys.length ≠ values.length then .error (.lengths keys.length values.length)
  else
    match checkBatch keys values with
    | .error e => .error e
    | .ok () =>
      match proof with
      -- Special case, there is no edge proof at all.
      | none =>
        match stackAll keccak NewStackTrie (keys.zip values) with
        | .error e => .error e
        | .ok tr =>
          let got := (tr.Hash keccak).2
          if got ≠ rootHash then .error (.wrongHash rootHash got) else .ok false
      | some proof =>
        match keys.getLast? with
        -- Special case, there is a provided edge proof but zero key/value pairs.
        | none =>
          match proofToPath fuel rootHash none firstKey proof true with
          | .error e => .error e
          | .ok (root, val) =>
            if val ≠ none then .error .moreEntries
            else
              match moreElements root firstKey with
              | .error e => .error e
              | .ok true => .error .moreEntries
              | .ok false => .ok false
        | some lastKey =>
          -- Special case, there is only one element and two edge keys are same.
          if keys.length = 1 ∧ firstKey = lastKey then
            match proofToPath fuel rootHash none firstKey proof false with
            | .error e => .error e
            | .ok (root, val) =>
              if firstKey ≠ keys.headD [] then .error .invalidKey
              else if val.getD [] ≠ values.headD [] then .error .invalidData
              else moreElements root firstKey
          else if ¬ firstKey < lastKey then .error .invalidEdges
          else if firstKey.length ≠ lastKey.length then .error .edgeLengths
          else
            match rebuild fuel rootHash firstKey lastKey (keys.zip values) proof with
            | .error e => .error e
            | .ok tr =>
              match Trie.rootHash keccak tr with
              | (tr, got) =>
                if got ≠ rootHash then .error (.wrongHash rootHash got)
                else moreElements tr.root lastKey

end Verify

end GoEthereum.Trie

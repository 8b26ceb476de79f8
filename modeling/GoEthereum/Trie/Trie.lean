import GoEthereum.Trie.Node

/-!
# The trie

`trie/trie.go`, with the tracer and the reader it uses. Go passes the whole key and
a position, or a path and the rest of the key; here every descent has the path so
far and the rest of the key.

Go changes branches in place. A function that fails after such a change leaves a
structure behind that differs from the one it was given, so an error of `delete`
carries the node that is then in the place of the one it was called with. `get` and
`insert` change a node only once nothing can fail any more, and leave on an error
what was there.

A hash node is resolved from a database, which may send a descent round in
circles; a descent is therefore bounded by `fuel`, and `Err.fuel` is the error of
one that exceeds its bound. On a well-formed trie two steps for every nibble of the
key are enough.
-/

namespace GoEthereum.Trie

/-- `types.EmptyRootHash`. -/
def emptyRootHash : Hash :=
  bigToHash 0x56e81f171bcc55a6ff8345e692c0f86e5b48e01b996cadc001622fb5e363b421

/-- The errors of a trie's operations. -/
inductive Err where
  | missing (owner hash : Hash) (path : Path)  -- MissingNodeError
  | decode (e : DecodeError)
  | committed                                  -- ErrCommitted
  | panic                                      -- a run-time panic
  | fuel
deriving DecidableEq

/-! ## The tracer -/

/-- `tracer`. -/
structure Tracer where
  inserts : Finset Path
  deletes : Finset Path
  accessList : Path → Option Bytes

def newTracer : Tracer where
  inserts := ∅
  deletes := ∅
  accessList := fun _ => none

namespace Tracer

def onRead (tr : Tracer) (path : Path) (val : Bytes) : Tracer :=
  { tr with accessList := Function.update tr.accessList path (some val) }

def onInsert (tr : Tracer) (path : Path) : Tracer :=
  if path ∈ tr.deletes then { tr with deletes := tr.deletes.erase path }
  else { tr with inserts := insert path tr.inserts }

def onDelete (tr : Tracer) (path : Path) : Tracer :=
  if path ∈ tr.inserts then { tr with inserts := tr.inserts.erase path }
  else { tr with deletes := insert path tr.deletes }

/-- `deletedNodes`, in no order. -/
def deletedNodes (tr : Tracer) : Finset Path :=
  tr.deletes.filter fun path => (tr.accessList path).isSome

end Tracer

/-! ## Reading nodes -/

/-- A `database.NodeReader`: the blob of an owner's node at a path with a hash, if it
can be had. -/
abbrev NodeReader : Type := Hash → Path → Hash → Option Bytes

/-- `trieReader`. -/
structure TrieReader where
  owner : Hash
  reader : Option NodeReader

/-- `(*trieReader).node`: an empty blob counts as missing. -/
def TrieReader.node (r : TrieReader) (path : Path) (hash : Hash) : Except Err Bytes :=
  match r.reader with
  | none => .error (.missing r.owner hash path)
  | some reader =>
    match reader r.owner path hash with
    | none => .error (.missing r.owner hash path)
    | some blob =>
      if blob.isEmpty then .error (.missing r.owner hash path) else .ok blob

def resolveAndTrack (r : TrieReader) (tr : Tracer) (n : Hash) (path : Path) :
    Tracer × Except Err Node :=
  match r.node path n with
  | .error e => (tr, .error e)
  | .ok blob =>
    (tr.onRead path blob, match decodeNode (some n) blob with
      | .error e => .error (.decode e)
      | .ok node => .ok node)

def resolve (r : TrieReader) (tr : Tracer) (n : Node) (path : Path) : Tracer × Except Err Node :=
  match n with
  | .hash h => resolveAndTrack r tr h path
  | n => (tr, .ok n)

/-! ## Descents -/

/-- `get`: the value, the node with what was resolved below it, and whether
anything was. -/
def get (r : TrieReader) : Nat → Tracer → Node → Path → Path →
    Tracer × Except Err (Option Bytes × Node × Bool)
  | 0, tr, _, _, _ => (tr, .error .fuel)
  | _ + 1, tr, .nil, _, _ => (tr, .ok (none, .nil, false))
  | _ + 1, tr, .value v, _, _ => (tr, .ok (some v, .value v, false))
  | fuel + 1, tr, .short k val f, path, key =>
    if k <+: key then
      match get r fuel tr val (path ++ k) (key.drop k.length) with
      | (tr, .error e) => (tr, .error e)
      | (tr, .ok (value, newnode, didResolve)) =>
        (tr, .ok (value, .short k (if didResolve then newnode else val) f, didResolve))
    else (tr, .ok (none, .short k val f, false))
  | _ + 1, tr, .full _ _, _, [] => (tr, .error .panic)
  | fuel + 1, tr, .full children f, path, a :: key =>
    match get r fuel tr (children a) (path ++ [a]) key with
    | (tr, .error e) => (tr, .error e)
    | (tr, .ok (value, newnode, didResolve)) =>
      (tr, .ok (value,
        .full (if didResolve then Function.update children a newnode else children) f,
        didResolve))
  | fuel + 1, tr, .hash h, path, key =>
    match resolveAndTrack r tr h path with
    | (tr, .error e) => (tr, .error e)
    | (tr, .ok child) =>
      match get r fuel tr child path key with
      | (tr, .error e) => (tr, .error e)
      | (tr, .ok (value, newnode, _)) => (tr, .ok (value, newnode, true))

/-- `insert`: whether anything changed, and the node with the value in it. -/
def insert (r : TrieReader) : Nat → Tracer → Node → Path → Path → Node →
    Tracer × Except Err (Bool × Node)
  | 0, tr, _, _, _, _ => (tr, .error .fuel)
  | _ + 1, tr, n, _, [], value =>
    match n, value with
    | .value v, .value w => (tr, .ok (decide (v ≠ w), .value w))
    | .value _, _ => (tr, .error .panic)
    | _, value => (tr, .ok (true, value))
  | fuel + 1, tr, .short k val f, path, a :: key, value =>
    let matchlen := Radix.prefixLen (a :: key) k
    if matchlen = k.length then
      match insert r fuel tr val (path ++ (a :: key).take matchlen)
        ((a :: key).drop matchlen) value with
      | (tr, .error e) => (tr, .error e)
      | (tr, .ok (dirty, nn)) =>
        if dirty then (tr, .ok (true, .short k nn newFlag))
        else (tr, .ok (false, .short k val f))
    else
      match k.drop matchlen, (a :: key).drop matchlen with
      | y :: k', x :: key' =>
        match insert r fuel tr .nil (path ++ k.take (matchlen + 1)) k' val with
        | (tr, .error e) => (tr, .error e)
        | (tr, .ok (_, old)) =>
          match insert r fuel tr .nil (path ++ (a :: key).take (matchlen + 1)) key'
            value with
          | (tr, .error e) => (tr, .error e)
          | (tr, .ok (_, new)) =>
            let branch := Node.full
              (Function.update (Function.update (fun _ => .nil) y old) x new) newFlag
            if matchlen = 0 then (tr, .ok (true, branch))
            else
              (tr.onInsert (path ++ (a :: key).take matchlen),
                .ok (true, .short ((a :: key).take matchlen) branch newFlag))
      -- one word is a part of the other: an index out of range
      | _, _ => (tr, .error .panic)
  | fuel + 1, tr, .full children f, path, a :: key, value =>
    match insert r fuel tr (children a) (path ++ [a]) key value with
    | (tr, .error e) => (tr, .error e)
    | (tr, .ok (dirty, nn)) =>
      if dirty then (tr, .ok (true, .full (Function.update children a nn) newFlag))
      else (tr, .ok (false, .full children f))
  | _ + 1, tr, .nil, path, a :: key, value =>
    (tr.onInsert path, .ok (true, .short (a :: key) value newFlag))
  | fuel + 1, tr, .hash h, path, a :: key, value =>
    match resolveAndTrack r tr h path with
    | (tr, .error e) => (tr, .error e)
    | (tr, .ok rn) =>
      match insert r fuel tr rn path (a :: key) value with
      | (tr, .error e) => (tr, .error e)
      | (tr, .ok (dirty, nn)) =>
        if dirty then (tr, .ok (true, nn)) else (tr, .ok (false, rn))
  | _ + 1, tr, .value _, _, _ :: _, _ => (tr, .error .panic)

/-- The occupied slots of a branch. -/
def occupied (children : Nibble → Node) : List Nibble :=
  slots.filter fun i => !(children i).isNil

/-- The end of `delete` at a branch whose slot has been emptied: with one occupied slot
left it becomes a short node. The branch has been changed by then, and is what an
error leaves behind. -/
def reduce (r : TrieReader) (tr : Tracer) (children : Nibble → Node) (path : Path) :
    Tracer × Except (Err × Node) (Bool × Node) :=
  match occupied children with
  | [pos] =>
    if pos = term then (tr, .ok (true, .short [pos] (children pos) newFlag))
    else
      match resolve r tr (children pos) (path ++ [pos]) with
      | (tr, .error e) => (tr, .error (e, .full children newFlag))
      | (tr, .ok cnode) =>
        match cnode with
        | .short k val _ =>
          (tr.onDelete (path ++ [pos]), .ok (true, .short (pos :: k) val newFlag))
        | _ => (tr, .ok (true, .short [pos] (children pos) newFlag))
  | _ => (tr, .ok (true, .full children newFlag))

/-- `delete`: whether anything changed, and the node without the key. -/
def delete (r : TrieReader) : Nat → Tracer → Node → Path → Path →
    Tracer × Except (Err × Node) (Bool × Node)
  | 0, tr, n, _, _ => (tr, .error (.fuel, n))
  | fuel + 1, tr, .short k val f, path, key =>
    let matchlen := Radix.prefixLen key k
    if matchlen < k.length then (tr, .ok (false, .short k val f))
    else if matchlen = key.length then (tr.onDelete path, .ok (true, .nil))
    else
      match delete r fuel tr val (path ++ key.take k.length) (key.drop k.length) with
      | (tr, .error (e, val)) => (tr, .error (e, .short k val f))
      | (tr, .ok (dirty, child)) =>
        if dirty then
          match child with
          | .short k' val' _ =>
            (tr.onDelete (path ++ k), .ok (true, .short (k ++ k') val' newFlag))
          | child => (tr, .ok (true, .short k child newFlag))
        else (tr, .ok (false, .short k val f))
  | _ + 1, tr, .full children f, _, [] => (tr, .error (.panic, .full children f))
  | fuel + 1, tr, .full children f, path, a :: key =>
    match delete r fuel tr (children a) (path ++ [a]) key with
    | (tr, .error (e, left)) =>
      (tr, .error (e, .full (Function.update children a left) f))
    | (tr, .ok (dirty, nn)) =>
      if dirty then
        if nn.isNil then reduce r tr (Function.update children a nn) path
        else (tr, .ok (true, .full (Function.update children a nn) newFlag))
      else (tr, .ok (false, .full children f))
  | _ + 1, tr, .value _, _, _ => (tr, .ok (true, .nil))
  | _ + 1, tr, .nil, _, _ => (tr, .ok (false, .nil))
  | fuel + 1, tr, .hash h, path, key =>
    match resolveAndTrack r tr h path with
    | (tr, .error e) => (tr, .error (e, .hash h))
    | (tr, .ok rn) =>
      match delete r fuel tr rn path key with
      -- what was resolved hangs nowhere yet
      | (tr, .error (e, _)) => (tr, .error (e, .hash h))
      | (tr, .ok (dirty, nn)) =>
        if dirty then (tr, .ok (true, nn)) else (tr, .ok (false, rn))

def copyNode : Node → Node
  | .nil => .nil
  | .value v => .value v
  | .short k val f => .short k (copyNode val) f
  | .full children f => .full (fun i => copyNode (children i)) f
  | .hash h => .hash h

end GoEthereum.Trie

/-! ## The trie -/

structure GoEthereum.Trie where
  root : GoEthereum.Trie.Node
  owner : GoEthereum.Hash
  committed : Bool
  unhashed : Nat
  uncommitted : Nat
  reader : GoEthereum.Trie.TrieReader
  tracer : GoEthereum.Trie.Tracer

namespace GoEthereum.Trie

/-- `ID`: the trie of an owner in a state. -/
structure ID where
  stateRoot : Hash
  owner : Hash
  root : Hash

/-- `newTrieReader`; the database has no reader for a state it does not know. -/
def newTrieReader (stateRoot owner : Hash) (db : Hash → Option NodeReader) :
    Except Err TrieReader :=
  if stateRoot = zeroHash ∨ stateRoot = emptyRootHash then
    .ok { owner := owner, reader := none }
  else
    match db stateRoot with
    | none => .error (.missing owner stateRoot [])
    | some reader => .ok { owner := owner, reader := some reader }

def New (id : ID) (db : Hash → Option NodeReader) : Except Err Trie :=
  match newTrieReader id.stateRoot id.owner db with
  | .error e => .error e
  | .ok reader =>
    let trie : Trie :=
      { root := .nil
        owner := id.owner
        committed := false
        unhashed := 0
        uncommitted := 0
        reader := reader
        tracer := newTracer }
    if id.root ≠ zeroHash ∧ id.root ≠ emptyRootHash then
      match resolveAndTrack reader trie.tracer id.root [] with
      | (_, .error e) => .error e
      | (tracer, .ok rootnode) => .ok { trie with root := rootnode, tracer := tracer }
    else .ok trie

/-- The bound on a descent for a key. -/
def fuelFor (k : Path) : Nat := 2 * k.length + 2

/-- `Copy`. -/
def copy (t : Trie) : Trie := { t with root := copyNode t.root }

def Get (t : Trie) (key : Bytes) : Trie × Except Err (Option Bytes) :=
  if t.committed then (t, .error .committed)
  else
    let k := keybytesToHex key
    match get t.reader (fuelFor k) t.tracer t.root [] k with
    | (tracer, .error e) => ({ t with tracer := tracer }, .error e)
    | (tracer, .ok (value, newroot, didResolve)) =>
      ({ t with root := if didResolve then newroot else t.root, tracer := tracer }, .ok value)

/-- The call of `delete` from the root. -/
def deleteRoot (t : Trie) (k : Path) : Trie × Except Err Unit :=
  match delete t.reader (fuelFor k) t.tracer t.root [] k with
  | (tracer, .error (e, left)) => ({ t with root := left, tracer := tracer }, .error e)
  | (tracer, .ok (_, n)) => ({ t with root := n, tracer := tracer }, .ok ())

/-- The call of `insert` from the root. -/
def insertRoot (t : Trie) (k : Path) (value : Bytes) : Trie × Except Err Unit :=
  match insert t.reader (fuelFor k) t.tracer t.root [] k (.value value) with
  | (tracer, .error e) => ({ t with tracer := tracer }, .error e)
  | (tracer, .ok (_, n)) => ({ t with root := n, tracer := tracer }, .ok ())

def update (t : Trie) (key value : Bytes) : Trie × Except Err Unit :=
  let t := { t with unhashed := t.unhashed + 1, uncommitted := t.uncommitted + 1 }
  let k := keybytesToHex key
  if value.length ≠ 0 then t.insertRoot k value else t.deleteRoot k

def Update (t : Trie) (key value : Bytes) : Trie × Except Err Unit :=
  if t.committed then (t, .error .committed) else t.update key value

def Delete (t : Trie) (key : Bytes) : Trie × Except Err Unit :=
  if t.committed then (t, .error .committed)
  else
    let t := { t with uncommitted := t.uncommitted + 1, unhashed := t.unhashed + 1 }
    t.deleteRoot (keybytesToHex key)

end GoEthereum.Trie

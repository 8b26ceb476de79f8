import GoEthereum.Rlp.Raw
import GoEthereum.Trie.Encoding

/-!
# Trie nodes

`trie/node.go` and `trie/node_enc.go`: nodes as they are in memory, the collapsed
form that is encoded, and the decoder. A nil interface value is `Node.nil`; the
children array of a full node is a function on its 17 indices. `decodeNode`
recurses into embedded nodes, each of which is strictly shorter than the buffer it
stands in, so the length of the buffer bounds the depth.
-/

namespace GoEthereum.Trie

/-- `nodeFlag`: the cached hash and whether the node must be written. -/
structure NodeFlag where
  hash : Option Hash
  dirty : Bool
deriving DecidableEq

/-- `(*Trie).newFlag`. -/
def newFlag : NodeFlag where
  hash := none
  dirty := true

/-- The in-memory nodes, with hex keys. -/
inductive Node where
  | nil
  | value (v : Bytes)
  | hash (h : Hash)
  | short (key : Path) (val : Node) (flags : NodeFlag)
  | full (children : Nibble → Node) (flags : NodeFlag)

/-- Nodes as the hasher and the committer leave them: compact keys, and no flags. -/
inductive Collapsed where
  | nil
  | value (v : Bytes)
  | hash (h : Hash)
  | short (key : Bytes) (val : Collapsed)
  | full (children : Nibble → Collapsed)

def Node.isNil : Node → Bool
  | .nil => true
  | _ => false

def Node.cache : Node → Option Hash × Bool
  | .short _ _ f => (f.hash, f.dirty)
  | .full _ f => (f.hash, f.dirty)
  | _ => (none, true)

/-- The indices of a full node, in order. -/
def slots : List Nibble := List.finRange 17

def Collapsed.encode : Collapsed → Bytes
  | .nil => Rlp.emptyString
  | .value v => Rlp.writeBytes v
  | .hash h => Rlp.writeBytes h.1
  | .short key val => Rlp.list (Rlp.writeBytes key ++ val.encode)
  | .full children => Rlp.list (slots.flatMap fun i => (children i).encode)

/-! ## Decoding -/

/-- What a decoder found wrong. -/
inductive DecodeErr where
  | unexpectedEOF
  | decode (e : Rlp.Err)            -- decode error: …
  | listElements (c : Nat)          -- invalid number of list elements: …
  | rlp (e : Rlp.Err)
  | valueNode (e : Rlp.Err)         -- invalid value node: …
  | oversizedEmbedded (size : Nat)  -- oversized embedded node (size is … bytes, want size < 32)
  | stringSize (size : Nat)         -- invalid RLP string size … (want 0 or 32)
deriving DecidableEq, Repr

/-- One step of the decode path `wrapError` records. -/
inductive DecodeCtx where
  | short
  | full
  | val
  | slot (i : Nat)
deriving DecidableEq, Repr

/-- `decodeError`; an error nobody wrapped yet has an empty stack. -/
structure DecodeError where
  what : DecodeErr
  stack : List DecodeCtx
deriving DecidableEq, Repr

def wrapError {α : Type} (r : Except DecodeError α) (ctx : DecodeCtx) : Except DecodeError α :=
  match r with
  | .ok a => .ok a
  | .error e => .error { e with stack := e.stack ++ [ctx] }

def decodeFail {α : Type} (e : DecodeErr) : Except DecodeError α :=
  .error { what := e, stack := [] }

section Decode

-- the decoder for embedded nodes
variable (decodeEmbedded : Bytes → Except DecodeError Node)

def decodeRef (buf : Bytes) : Except DecodeError (Node × Bytes) :=
  match Rlp.split buf with
  | .error e => decodeFail (.rlp e)
  | .ok (.list, _, rest) =>
    if 32 < buf.length - rest.length then
      decodeFail (.oversizedEmbedded (buf.length - rest.length))
    else
      match decodeEmbedded buf with
      | .error e => .error e
      | .ok n => .ok (n, rest)
  | .ok (.string, val, rest) =>
    if val.length = 0 then .ok (.nil, rest)
    else if h : val.length = 32 then .ok (.hash ⟨val, h⟩, rest)
    else decodeFail (.stringSize val.length)
  | .ok (.byte, val, _) => decodeFail (.stringSize val.length)

def decodeShort (hash : Option Hash) (elems : Bytes) : Except DecodeError Node :=
  match Rlp.splitString elems with
  | .error e => decodeFail (.rlp e)
  | .ok (kbuf, rest) =>
    let key := compactToHex kbuf
    let flags : NodeFlag := { hash := hash, dirty := false }
    if hasTerm key then
      match Rlp.splitString rest with
      | .error e => decodeFail (.valueNode e)
      | .ok (val, _) => .ok (.short key (.value val) flags)
    else
      match decodeRef decodeEmbedded rest with
      | .error e => wrapError (.error e) .val
      | .ok (r, _) => .ok (.short key r flags)

/-- The loop of `decodeFull` over `count` children from index `i` on. -/
def decodeRefs : Nat → Nat → Bytes → Except DecodeError (List Node × Bytes)
  | _, 0, elems => .ok ([], elems)
  | i, count + 1, elems =>
    match decodeRef decodeEmbedded elems with
    | .error e => wrapError (.error e) (.slot i)
    | .ok (cld, rest) =>
      match decodeRefs (i + 1) count rest with
      | .error e => .error e
      | .ok (clds, rest) => .ok (cld :: clds, rest)

def decodeFull (hash : Option Hash) (elems : Bytes) : Except DecodeError Node :=
  match decodeRefs decodeEmbedded 0 16 elems with
  | .error e => .error e
  | .ok (clds, rest) =>
    match Rlp.splitString rest with
    | .error e => decodeFail (.rlp e)
    | .ok (val, _) =>
      .ok (.full (fun i =>
          if i = term then if val.isEmpty then .nil else .value val
          else clds.getD i.val .nil)
        { hash := hash, dirty := false })

end Decode

/-- `decodeNodeUnsafe` for buffers of fewer than `fuel` bytes. -/
def decodeNodeF : Nat → Option Hash → Bytes → Except DecodeError Node
  | 0, _, _ => decodeFail .unexpectedEOF
  | fuel + 1, hash, buf =>
    if buf.isEmpty then decodeFail .unexpectedEOF
    else
      match Rlp.splitList buf with
      | .error e => decodeFail (.decode e)
      | .ok (elems, _) =>
        -- the error of `CountValues` is dropped, the count is then zero
        match (Rlp.countValues elems).toOption.getD 0 with
        | 2 => wrapError (decodeShort (decodeNodeF fuel none) hash elems) .short
        | 17 => wrapError (decodeFull (decodeNodeF fuel none) hash elems) .full
        | c => decodeFail (.listElements c)

def decodeNode (hash : Option Hash) (buf : Bytes) : Except DecodeError Node :=
  decodeNodeF (buf.length + 1) hash buf

end GoEthereum.Trie

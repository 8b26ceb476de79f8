import GoEthereum.Trie.Codec
import GoEthereum.Trie.Hasher

/-!
# Node blobs

What is written for a node is read back as the node. References are any hashes: a reference is
taken for a branch with the hash as its value, and for the hash function one that reads the
last 32 bytes. This makes a node of any references the first node of a tree.
-/

namespace GoEthereum.Trie

open List

open Radix (Terminated)

variable {n : Nat} {node c : Node} {k : Path} {ns : Nibble → Node} {f : NodeFlag}

/-- The node with compact keys that is written for a node. -/
def Node.collapse : Node → Collapsed
  | .nil => .nil
  | .value v => .value v
  | .hash h => .hash h
  | .short k c _ => .short (hexToCompact k) c.collapse
  | .full ns _ => .full fun i => (ns i).collapse

/-- The node as it is loaded: not dirty, and with a hash at its top. -/
def Node.loaded (hash : Option Hash) : Node → Node
  | .short k c _ => .short k (c.loaded none) { hash := hash, dirty := false }
  | .full ns _ => .full (fun i => (ns i).loaded none) { hash := hash, dirty := false }
  | n => n

/-- The canonical nodes of a trie whose keys have at most `n` nibbles from there on. A child is a
hash, or a node of less than 32 bytes. -/
inductive Stored : Nat → Node → Prop where
  | leaf {n : Nat} {k : Path} {v : Bytes} {f : NodeFlag} : Terminated term k → k.length ≤ n →
      ValueOk v → Stored n (.short k (.value v) f)
  | reference {n : Nat} {k : Path} {h : Hash} {f : NodeFlag} : k ≠ [] → term ∉ k → k.length < n →
      Stored n (.short k (.hash h) f)
  | ext {n m : Nat} {k : Path} {ns : Nibble → Node} {f f' : NodeFlag} : k ≠ [] → term ∉ k →
      k.length + m ≤ n → Stored m (.full ns f') → (Node.full ns f').collapse.encode.length < 32 →
      Stored n (.short k (.full ns f') f)
  | full {n m : Nat} {ns : Nibble → Node} {f : NodeFlag} : 0 < m → m < n →
      (∀ i, i ≠ term → ¬ (ns i).Skipped → Stored m (ns i)) →
      (∀ i, i ≠ term → ¬ (ns i).Skipped → (ns i).collapse.encode.length < 32) →
      (ns term = .nil ∨ ∃ v, ValueOk v ∧ ns term = .value v) → Stored n (.full ns f)

/-! ## References -/

/-- The last 32 bytes. -/
def lastBytes (b : Bytes) : Hash :=
  ⟨(replicate 32 0 ++ b).drop b.length, by
    rw [length_drop, length_append, length_replicate, Nat.add_sub_cancel]⟩

theorem lastBytes_append (front : Bytes) (h : Hash) : lastBytes (front ++ h.1) = h := by
  apply Subtype.ext
  have hlen : (front ++ h.1).length = (replicate 32 (0 : UInt8) ++ front).length := by
    rw [length_append, length_append, length_replicate, h.2, Nat.add_comm]
  change (replicate 32 0 ++ (front ++ h.1)).drop (front ++ h.1).length = h.1
  rw [← append_assoc, hlen, drop_left]

/-- A tree with the references of a node. -/
def Node.tree : Node → TrieTree
  | .nil => .nil
  | .value v => .value v
  | .hash h => .full fun i => if i = term then .value h.1 else .nil
  | .short k c _ => .short k c.tree
  | .full ns _ => .full fun i => (ns i).tree

theorem enc_reference (h : Hash) :
    ∃ front, enc lastBytes (Node.hash h).tree = front ++ h.1 := by
  have hbytes : ∃ front, Rlp.writeBytes h.1 = front ++ h.1 := by
    refine ⟨_, Rlp.writeBytes_of_ne_singleton fun x hx => ?_⟩
    have := h.2
    rw [hx] at this
    cases this
  obtain ⟨front, hfront⟩ := hbytes
  rw [Node.tree, enc_full, flatMap_slots, Rlp.list, if_pos rfl, ref_value, hfront]
  rw [← append_assoc, ← append_assoc]
  exact ⟨_, rfl⟩

/-- A child is read, written and hashed like that of the tree. -/
structure ChildAlike (c : Node) : Prop where
  ref : ref lastBytes c.tree = c.collapse.encode
  node : refNode lastBytes c.tree = c.loaded none
  hashed : ∀ keccak, (hash keccak c.strip false).1.encode = c.collapse.encode

/-- A node is read, written and hashed like the first node of the tree. -/
structure Readable (n : Nat) (node : Node) : Prop where
  shape : TrieShape n node.tree
  written : enc lastBytes node.tree = node.collapse.encode
  first : ∀ hash, firstNode lastBytes hash node.tree = node.loaded hash
  hashed : ∀ keccak, ∃ d : Collapsed, d.encode = node.collapse.encode ∧
    ∀ force, (hash keccak node.strip force).1 = nodeToHash keccak d force

theorem childAlike_hash (h : Hash) : ChildAlike (.hash h) := by
  obtain ⟨front, henc⟩ := enc_reference h
  have hlast : lastBytes (enc lastBytes (Node.hash h).tree) = h := by
    rw [henc, lastBytes_append]
  have ha : apart (Node.hash h).tree (enc lastBytes (Node.hash h).tree) = true := by
    rw [apart_iff, henc, length_append, h.2]
    exact ⟨rfl, Nat.le_add_left _ _⟩
  refine ⟨?_, ?_, fun _ => rfl⟩
  · rw [ref_of_apart ha, hlast]
    rfl
  · rw [refNode_of_apart ha, hlast]
    rfl

theorem Readable.alike (h : Readable n c) (hlt : c.collapse.encode.length < 32) : ChildAlike c := by
  have ha : ¬ apart c.tree (enc lastBytes c.tree) = true := by
    rw [apart_iff, h.written]
    omega
  refine ⟨by rw [ref_of_not_apart ha, h.written], by rw [refNode_of_not_apart ha, h.first], ?_⟩
  intro keccak
  obtain ⟨d, hd, hhash⟩ := h.hashed keccak
  rw [hhash, nodeToHash, if_pos ⟨by rwa [hd], rfl⟩, hd]

theorem ChildAlike.short (h : ChildAlike c) (hshape : TrieShape n (Node.short k c f).tree) :
    Readable n (.short k c f) where
  shape := hshape
  written := by
    rw [Node.tree, enc_short, h.ref]
    rfl
  first hash := by
    rw [Node.tree, firstNode_short, h.node]
    rfl
  hashed keccak := by
    refine ⟨.short (hexToCompact k) _, ?_, fun _ => rfl⟩
    rw [Collapsed.encode, h.hashed]
    rfl

theorem trieShape_reference (h : Hash) (hn : 0 < n) : TrieShape n (Node.hash h).tree := by
  refine .full hn (fun i hi hne => absurd (if_neg hi) hne) (.inr ⟨h.1, ⟨?_, ?_⟩, if_pos rfl⟩)
  · intro hnil
    have := h.2
    rw [hnil] at this
    cases this
  · rw [h.2]
    decide

/-- The induction is on the node, with its embedded children. -/
theorem Stored.readable (h : Stored n node) : Readable n node := by
  induction h with
  | leaf hk hn hv => exact ChildAlike.short ⟨rfl, rfl, fun _ => rfl⟩ (.leaf hk hn hv)
  | @reference n k h f hk hkt hn =>
    exact (childAlike_hash h).short (.ext hk hkt (m := 1) hn (trieShape_reference h Nat.one_pos))
  | ext hk hkt hn _ hlt ih => exact (ih.alike hlt).short (.ext hk hkt hn ih.shape)
  | @full n m ns f hm hn _ hlt hval ih =>
    have hslot : ∀ i, i ≠ term →
        ((ns i).tree = .nil ∨ TrieShape m (ns i).tree) ∧ ChildAlike (ns i) := by
      intro i hi
      by_cases hemb : (ns i).Skipped
      · rcases hemb with hnil | ⟨h, hhash⟩
        · rw [hnil]
          exact ⟨.inl rfl, rfl, rfl, fun _ => rfl⟩
        · rw [hhash]
          exact ⟨.inr (trieShape_reference h hm), childAlike_hash h⟩
      · exact ⟨.inr (ih i hi hemb).shape, (ih i hi hemb).alike (hlt i hi hemb)⟩
    have hterm : ChildAlike (ns term) ∧ (ns term).strip.raw.encode = (ns term).collapse.encode := by
      rcases hval with hnil | ⟨v, -, hv⟩
      · rw [hnil]
        exact ⟨⟨rfl, rfl, fun _ => rfl⟩, rfl⟩
      · rw [hv]
        exact ⟨⟨rfl, rfl, fun _ => rfl⟩, rfl⟩
    have hall : ∀ i, ChildAlike (ns i) := by
      intro i
      by_cases hi : i = term
      · rw [hi]
        exact hterm.1
      · exact (hslot i hi).2
    refine ⟨.full hn (fun i hi hne => (hslot i hi).1.resolve_left hne) ?_, ?_, ?_, ?_⟩
    · exact hval.imp (fun h => by rw [h]; rfl) fun ⟨v, hv, h⟩ => ⟨v, hv, by rw [h]; rfl⟩
    · simp only [Node.tree, enc_full, (hall _).ref]
      rfl
    · intro hash
      simp only [Node.tree, firstNode_full, (hall _).node]
      rfl
    · refine fun keccak => ⟨_, ?_, fun _ => rfl⟩
      refine congrArg (fun e => Rlp.list (slots.flatMap e)) (funext fun i => ?_)
      beta_reduce
      split
      · rename_i hi
        rw [hi]
        exact hterm.2
      split
      · cases hc : ns i with
        | nil => rfl
        | _ => simp_all [Node.isNil, Node.strip]
      · exact (hall i).hashed keccak

theorem strip_loaded (node : Node) (hash : Option Hash) :
    (node.loaded hash).strip = node.strip := by
  induction node generalizing hash with
  | nil => rfl
  | value v => rfl
  | hash h => rfl
  | short k c f ih => exact congrArg (Node.short k · newFlag) (ih none)
  | full ns f ih => exact congrArg (Node.full · newFlag) (funext fun i => ih i none)

/-- **Node blobs round-trip.** What is written for a node is read back as the node, and
hashing that from scratch gives the hash of what was written. -/
theorem decodeNode_nodeToBytes (hn : n ≤ maxKey) (h : Stored n node) (cached : Option Hash) :
    decodeNode cached node.collapse.encode = .ok (node.loaded cached) ∧ ∀ keccak : Bytes → Hash,
      (hash keccak (node.loaded cached).strip true).1 = .hash (keccak node.collapse.encode) := by
  have hread := h.readable
  constructor
  · rw [← hread.written, ← hread.first]
    exact decodeNode_enc hn hread.shape cached
  · intro keccak
    obtain ⟨d, hd, hhash⟩ := hread.hashed keccak
    rw [strip_loaded, hhash, nodeToHash, if_neg (by simp), hd]

theorem decodeNode_nodeToBytes_leaf :
    decodeNode none (Node.short [5, term] (.value [1]) newFlag).collapse.encode =
      .ok (.short [5, term] (.value [1]) { hash := none, dirty := false }) :=
  (decodeNode_nodeToBytes (n := 2) (by decide) (.leaf ⟨[5], rfl, by decide⟩ le_rfl (by decide))
    none).1

end GoEthereum.Trie

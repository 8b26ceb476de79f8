import GoEthereum.Trie.Rep

/-!
# The hash of a trie

The hasher collapses a node to the reference its parent's encoding has for it, and
fills the hash caches on the way: the root hash of a node is the hash of the encoding
of the tree it stands for, whatever was cached before.
-/

namespace GoEthereum.Trie

open Radix (Tree)
open Radix.Tree

variable {N : Nat} {n : Node} {f : NodeFlag} {p : Path} {t : TrieTree}

section Hashing

variable {keccak : Bytes → Hash} {S : Path → TrieTree → Prop}

/-- What the hasher makes of a node at `p` that stands for `t`. -/
structure HashSpec (keccak : Bytes → Hash) (S : Path → TrieTree → Prop) (p : Path) (n : Node)
    (t : TrieTree) (out : Collapsed × Node) : Prop where
  rep : Rep keccak S p out.2 t
  above : ∀ r, HashAbove out.2 r ↔ HashAbove n r
  big : Standalone keccak p t → out.1 = .hash (keccak (enc keccak t)) ∧ Cached out.2
  small : ¬ Standalone keccak p t → out.1.encode = enc keccak t

/-- What it makes of a child. -/
structure ChildSpec (keccak : Bytes → Hash) (S : Path → TrieTree → Prop) (p : Path) (n : Node)
    (t : TrieTree) (out : Collapsed × Node) : Prop where
  rep : Rep keccak S p out.2 t
  above : ∀ r, HashAbove out.2 r ↔ HashAbove n r
  settled : Settled keccak out.2 t
  encode : out.1.encode = ref keccak t

theorem HashSpec.child (hp : p ≠ []) {out : Collapsed × Node} (ht : t.isNode = true)
    (h : HashSpec keccak S p n t out) : ChildSpec keccak S p n t out where
  rep := h.rep
  above := h.above
  settled hlen := (h.big (.inr hlen)).2
  encode := by
    by_cases ha : apart t (enc keccak t) = true
    · rw [ref_of_apart ha, (h.big (.inr (apart_iff.mp ha).2)).1]
      rfl
    · rw [ref_of_not_apart ha, h.small (not_standalone hp ht ha)]

theorem childSpec_nil (p : Path) : ChildSpec keccak S p .nil .nil (.nil, .nil) where
  rep := .nil p
  above _ := Iff.rfl
  settled _ := trivial
  encode := rfl

theorem childSpec_value (p : Path) (v : Bytes) :
    ChildSpec keccak S p (.value v) (.value v) (.value v, .value v) where
  rep := .value p v
  above _ := Iff.rfl
  settled _ := trivial
  encode := rfl

theorem nodeToHash_big {n : Collapsed} (hn : n.encode = enc keccak t) (h : Standalone keccak p t) :
    nodeToHash keccak n (decide (p = [])) = .hash (keccak (enc keccak t)) := by
  rw [nodeToHash, hn, if_neg]
  rintro ⟨hlen, hp⟩
  rcases h with hnil | hbig
  · exact of_decide_eq_false hp hnil
  · omega

theorem nodeToHash_small {n : Collapsed} (hn : n.encode = enc keccak t)
    (h : ¬ Standalone keccak p t) : nodeToHash keccak n (decide (p = [])) = n := by
  rw [Standalone, not_or, not_le] at h
  rw [nodeToHash, hn, if_pos ⟨h.2, decide_eq_false h.1⟩]

/-- The flags of a node that has just been hashed. -/
theorem flagsOk_hashed (hf : FlagsOk keccak S p t f) (hnone : f.hash = none)
    (h : Standalone keccak p t) :
    FlagsOk keccak S p t { f with hash := some (keccak (enc keccak t)) } where
  hash h' heq := by
    cases heq
    exact ⟨rfl, h⟩
  clean _ hdirty := absurd h (hf.embedded hnone hdirty)
  embedded heq := by cases heq

/-- A walk over a short node whose hash is not cached. -/
theorem hash_short_spec {k : Path} (hf : FlagsOk keccak S p (.short k t) f) (hnone : f.hash = none)
    (hchild : ChildSpec keccak S (p ++ k) n t (hash keccak n false)) :
    HashSpec keccak S p (.short k n f) (.short k t)
      (hash keccak (.short k n f) (decide (p = []))) := by
  have henc : (Collapsed.short (hexToCompact k) (hash keccak n false).1).encode =
      enc keccak (.short k t) := by
    rw [Collapsed.encode, hchild.encode, enc_short]
  have habove : ∀ (f' : NodeFlag) r, HashAbove (.short k (hash keccak n false).2 f') r ↔
      HashAbove (.short k n f) r := by
    intro f' r
    rw [hashAbove_short, hashAbove_short]
    exact exists_congr fun r' => and_congr Iff.rfl (hchild.above r')
  rw [hash, hnone]
  by_cases hs : Standalone keccak p (.short k t)
  · simp only [nodeToHash_big henc hs, hashedFlags]
    exact ⟨.short hchild.rep (flagsOk_hashed hf hnone hs) fun _ => hchild.settled, habove _,
      fun _ => ⟨rfl, Option.some_ne_none _⟩, fun h => absurd hs h⟩
  simp only [nodeToHash_small henc hs, hashedFlags]
  refine ⟨.short hchild.rep ?_ fun h => absurd rfl h, habove _, fun h => absurd h hs,
    fun _ => henc⟩
  rw [← hnone]
  exact hf

/-- A walk over a branch whose hash is not cached. -/
theorem hash_full_spec {ns : Nibble → Node} {ts : Nibble → TrieTree}
    (hf : FlagsOk keccak S p (.full ts) f) (hnone : f.hash = none)
    (hchild : ∀ i, i ≠ term → ChildSpec keccak S (p ++ [i]) (ns i) (ts i) (hash keccak (ns i) false))
    (hterm : ChildSpec keccak S (p ++ [term]) (ns term) (ts term) ((ns term).raw, ns term)) :
    HashSpec keccak S p (.full ns f) (.full ts) (hash keccak (.full ns f) (decide (p = []))) := by
  have hout : ∀ i, ChildSpec keccak S (p ++ [i]) (ns i) (ts i) (if i = term then (ns i).raw
        else if (ns i).isNil then .value [] else (hash keccak (ns i) false).1,
        if i = term then ns i else (hash keccak (ns i) false).2) := by
    intro i
    by_cases hi : i = term
    · subst hi
      simp only [if_true]
      exact hterm
    simp only [if_neg hi]
    have h := hchild i hi
    refine ⟨h.rep, h.above, h.settled, ?_⟩
    have hencode := h.encode
    cases hn : ns i with
    | nil =>
      -- `nilValueNode` is encoded like nothing at all
      rw [hn] at hencode
      exact Rlp.writeBytes_nil.trans hencode
    | value v => rw [hn] at hencode; exact hencode
    | hash h' => rw [hn] at hencode; exact hencode
    | short k m f => rw [hn] at hencode; exact hencode
    | full ms f => rw [hn] at hencode; exact hencode
  have henc : (Collapsed.full fun i => if i = term then (ns i).raw
      else if (ns i).isNil then .value [] else (hash keccak (ns i) false).1).encode =
      enc keccak (.full ts) := by
    rw [Collapsed.encode, enc_full]
    congr 2
    funext i
    exact (hout i).encode
  have habove : ∀ (f' : NodeFlag) r, HashAbove (.full (fun i => if i = term then ns i
      else (hash keccak (ns i) false).2) f') r ↔ HashAbove (.full ns f) r := by
    intro f' r
    rw [hashAbove_full, hashAbove_full]
    exact exists_congr fun i => exists_congr fun r' =>
      and_congr Iff.rfl ((hout i).above r')
  rw [hash, hnone]
  by_cases hs : Standalone keccak p (.full ts)
  · simp only [nodeToHash_big henc hs, hashedFlags]
    exact ⟨.full (fun i => (hout i).rep) (flagsOk_hashed hf hnone hs)
      fun _ i => (hout i).settled, habove _, fun _ => ⟨rfl, Option.some_ne_none _⟩,
      fun h => absurd hs h⟩
  simp only [nodeToHash_small henc hs, hashedFlags]
  refine ⟨.full (fun i => (hout i).rep) ?_ fun h => absurd rfl h, habove _,
    fun h => absurd h hs, fun _ => henc⟩
  rw [← hnone]
  exact hf

/-- The hasher on a node that stands for a tree. -/
theorem hash_spec (h : Rep keccak S p n t) (ht : TrieShape N t) :
    HashSpec keccak S p n t (hash keccak n (decide (p = []))) := by
  induction h generalizing N with
  | nil => exact absurd rfl ht.ne_nil
  | value p v => cases ht
  | hash hnode hlen hs =>
    exact ⟨.hash hnode hlen hs, fun _ => Iff.rfl, fun _ => ⟨rfl, trivial⟩,
      fun h => absurd (.inr hlen) h⟩
  | @short p k n t f hn hf hset ih =>
    cases hfh : f.hash with
    | some h =>
      -- a cached hash is returned as it is
      obtain ⟨rfl, hs⟩ := hf.hash h hfh
      rw [hash, hfh]
      exact ⟨.short hn hf hset, fun _ => Iff.rfl,
        fun _ => ⟨rfl, by rw [Cached, hfh]; exact Option.some_ne_none _⟩,
        fun h => absurd hs h⟩
    | none =>
      refine hash_short_spec hf hfh ?_
      have hpk : p ++ k ≠ [] := List.append_ne_nil_of_right_ne_nil p ht.word.2
      cases ht with
      | leaf _ _ _ =>
        rw [hn.value_node]
        exact childSpec_value _ _
      | ext _ _ _ hts =>
        have h := ih hts
        rw [decide_eq_false hpk] at h
        exact h.child hpk rfl
  | @full p ns ts f hns hf hset ih =>
    cases hfh : f.hash with
    | some h =>
      obtain ⟨rfl, hs⟩ := hf.hash h hfh
      rw [hash, hfh]
      exact ⟨.full hns hf hset, fun _ => Iff.rfl,
        fun _ => ⟨rfl, by rw [Cached, hfh]; exact Option.some_ne_none _⟩,
        fun h => absurd hs h⟩
    | none =>
      have hpi : ∀ i, p ++ [i] ≠ [] := fun i => List.concat_ne_nil i p
      refine hash_full_spec hf hfh (fun i hi => ?_) ?_
      · rcases ht.slot hi with hnil | hshape
        · have := hns i
          rw [hnil] at this ⊢
          rw [this.nil_node]
          exact childSpec_nil _
        · have h := ih i hshape
          rw [decide_eq_false (hpi i)] at h
          exact h.child (hpi i) hshape.isNode
      · have hslot := hns term
        rcases ht.valueSlot with hnil | ⟨v, -, hv⟩
        · rw [hnil] at hslot ⊢
          rw [hslot.nil_node]
          exact childSpec_nil _
        · rw [hv] at hslot ⊢
          rw [hslot.value_node]
          exact childSpec_value _ v

/-- A node without its caches stands for the same tree, wherever it is put. -/
theorem Rep.strip_from {q : Path} (h : Rep keccak S (p ++ q) n t) :
    Rep keccak (fun r => S (p ++ r)) q n.strip t := by
  generalize hpq : p ++ q = pq at h
  induction h generalizing q with
  | nil => exact .nil q
  | value _ v => exact .value q v
  | hash hnode hlen hs =>
    subst hpq
    exact .hash hnode hlen hs
  | short _ _ _ ih =>
    subst hpq
    exact (ih (List.append_assoc _ _ _).symm).short_new
  | full _ _ _ ih =>
    subst hpq
    exact Rep.full_new fun i => ih i (List.append_assoc _ _ _).symm

/-- The hash of a node computed from scratch. -/
theorem hash_strip (h : Rep keccak S p n t) (ht : TrieShape N t) :
    (hash keccak n.strip true).1 = .hash (keccak (enc keccak t)) := by
  rw [← List.append_nil p] at h
  have hspec := hash_spec h.strip_from ht
  rw [decide_eq_true rfl] at hspec
  exact (hspec.big (.inl rfl)).1

/-! ## Root hashes -/

/-- The root hash of a tree. -/
def treeHash (keccak : Bytes → Hash) (t : TrieTree) : Hash :=
  if t.isNil then emptyRootHash else keccak (enc keccak t)

theorem treeHash_of_shape (h : TrieShape N t) : treeHash keccak t = keccak (enc keccak t) := by
  rw [treeHash, if_neg]
  rw [isNil_iff]
  exact h.ne_nil

/-- `Hash` returns the root hash of the tree, and changes nothing but hash caches. -/
theorem rootHash_spec {t : Trie} {u : TrieTree} (h : Rep keccak S [] t.root u) (hu : TrieFits N u) :
    ∃ root, rootHash keccak t = ({ t with root := root, unhashed := if u.isNil then t.unhashed else 0 },
        treeHash keccak u) ∧
      Rep keccak S [] root u ∧ (∀ r, HashAbove root r ↔ HashAbove t.root r) ∧ Cached root := by
  rcases hu with rfl | hu
  · refine ⟨.nil, ?_, .nil [], ?_, trivial⟩
    · obtain ⟨root, owner, committed, unhashed, uncommitted, reader, tracer⟩ := t
      have hroot : root = .nil := h.nil_node
      subst hroot
      rfl
    · intro r
      rw [h.nil_node]
  · have hspec := hash_spec h hu
    rw [decide_eq_true rfl] at hspec
    have hbig := hspec.big (.inl rfl)
    have hnil : u.isNil = false := by
      rw [Bool.eq_false_iff, Ne, isNil_iff]
      exact hu.ne_nil
    refine ⟨(hash keccak t.root true).2, ?_, hspec.rep, hspec.above, hbig.2⟩
    have hroot : hashRoot keccak t = ({ t with root := (hash keccak t.root true).2, unhashed := 0 },
          (hash keccak t.root true).1) := by
      rw [hashRoot]
      split
      · rename_i heq
        rw [heq] at h
        exact absurd h.nil_tree hu.ne_nil
      · rfl
    rw [rootHash, hroot, hbig.1, treeHash_of_shape hu, hnil]
    rfl

/-- The hash computed from scratch is the same. -/
theorem rehash_eq {t : Trie} {u : TrieTree} (h : Rep keccak S [] t.root u) (hu : TrieFits N u) :
    rehash keccak t = treeHash keccak u := by
  have hstrip : Rep keccak S [] ({ t with root := t.root.strip } : Trie).root u :=
    Rep.strip_from (p := []) h
  obtain ⟨root, heq, -⟩ := rootHash_spec hstrip hu
  rw [rehash, heq]

end Hashing

end GoEthereum.Trie

import GoEthereum.Trie.Hashing

/-!
# The committed nodes

What the committer adds to a node set when it walks over a hashed node that stands
for a tree. For every path at or below the node, `Entry` relates what the set held
there to what it holds afterwards: a node that is stored apart has been written or is
in the store already, an embedded one is marked as deleted if it had been read from
the store, and nothing happens where there is no node.
-/

namespace GoEthereum.Trie

open Radix (Tree)
open Radix.Tree Function
open List hiding set

variable {N : Nat} {i : Nibble} {ns : Nibble → Node}
  {com : Nibble → NodeSet → Option (NodeSet × Collapsed)} {ts : Nibble → TrieTree} {n : Node}
  {f : NodeFlag} {p q : Path} {c t : TrieTree}

section Entries

variable (keccak : Bytes → Hash) (S : Path → TrieTree → Prop) (tr : Tracer)

/-- The set node written for a tree. -/
def live (t : TrieTree) : SetNode where
  hash := keccak (enc keccak t)
  blob := enc keccak t

/-- No embedded node of a stored trie has been read. -/
def Unread : Prop :=
  ∀ {p r : Path} {t u : TrieTree}, S p t → t.nodeAt r = some u →
    ¬ Standalone keccak (p ++ r) u → tr.accessList (p ++ r) = none

/-- What becomes of the set's entry for a path with, or without, a node. -/
structure Entry (q : Path) (node : Option TrieTree) (e e' : Option SetNode) : Prop where
  absent : node = none → e' = e
  big : ∀ u, node = some u → Standalone keccak q u → e' = some (live keccak u) ∨ (S q u ∧ e' = e)
  small : ∀ u, node = some u → ¬ Standalone keccak q u →
    ((tr.accessList q).isSome = true ∧ e' = some newDeleted) ∨
      (e' = e ∧ (Unread keccak S tr → tr.accessList q = none))

/-- The committer's changes to a node set at a node for `t`. -/
structure Commits (p : Path) (t : TrieTree) (set set' : NodeSet) : Prop where
  frame : ∀ q, ¬ p <+: q → set'.nodes q = set.nodes q
  entry : ∀ r, Entry keccak S tr (p ++ r) (t.nodeAt r) (set.nodes (p ++ r)) (set'.nodes (p ++ r))

variable {keccak S tr}

theorem entry_absent (q : Path) (e : Option SetNode) : Entry keccak S tr q none e e where
  absent _ := rfl
  big u hu := by cases hu
  small u hu := by cases hu

/-- A stored trie is left as it is. -/
theorem commits_stored (hS : StoreOk keccak S) (ht : t.isNode = true) (hs : S p t) (set : NodeSet) :
    Commits keccak S tr p t set set where
  frame _ _ := rfl
  entry r := by
    refine ⟨fun _ => rfl, fun u hu hbig => Or.inr ⟨?_, rfl⟩, fun u hu hsmall =>
      Or.inr ⟨rfl, fun hread => hread hs hu hsmall⟩⟩
    by_cases hr : r = []
    · subst hr
      rw [nodeAt_self ht] at hu
      cases hu
      rw [append_nil]
      exact hs
    · refine hS.closed hs hu hr ?_
      rcases hbig with hnil | hlen
      · exact absurd (append_eq_nil_iff.mp hnil).2 hr
      · exact hlen

theorem commits_nil (p : Path) (set : NodeSet) : Commits keccak S tr p .nil set set :=
  ⟨fun _ _ => rfl, fun _ => entry_absent _ _⟩

theorem commits_value (p : Path) (v : Bytes) (set : NodeSet) :
    Commits keccak S tr p (.value v) set set :=
  ⟨fun _ _ => rfl, fun _ => entry_absent _ _⟩

/-- The child of a short node, and then the node. -/
theorem commits_short {k : Path} (hk : k ≠ []) {set set₁ set' : NodeSet}
    (h : Commits keccak S tr (p ++ k) c set set₁)
    (hself : Entry keccak S tr p (some (.short k c)) (set₁.nodes p) (set'.nodes p))
    (hrest : ∀ q, q ≠ p → set'.nodes q = set₁.nodes q) :
    Commits keccak S tr p (.short k c) set set' where
  frame q hq := by
    rw [hrest q fun heq => hq (heq ▸ prefix_rfl)]
    exact h.frame q fun hpre => hq ((prefix_append p k).trans hpre)
  entry r := by
    by_cases hr : r = []
    · subst hr
      have hout : ¬ p ++ k <+: p := fun hpre => by
        have := hpre.length_le
        have := length_pos_iff.mpr hk
        rw [length_append] at *
        omega
      rw [append_nil, ← h.frame p hout]
      exact hself
    · have hne : p ++ r ≠ p := fun heq => hr (self_eq_append_right.mp heq.symm)
      rw [hrest _ hne]
      by_cases hpre : k <+: r
      · obtain ⟨r', rfl⟩ := hpre
        rw [nodeAt_short_append hk, ← append_assoc]
        exact h.entry r'
      have hnone : (Radix.Tree.short k c).nodeAt r = none := by
        rw [← Option.not_isSome_iff_eq_none]
        intro hsome
        rcases (hasNode_short k c r).mp hsome with hnil | ⟨r', rfl, -⟩
        · exact hr hnil
        · exact hpre (prefix_append k r')
      rw [hnone, h.frame]
      · exact entry_absent _ _
      · rw [prefix_append_right_inj]
        exact hpre

/-- The children of a branch, and then the branch. -/
theorem commits_full {set set₁ set' : NodeSet}
    (hframe : ∀ q, (∀ i, ¬ p ++ [i] <+: q) → set₁.nodes q = set.nodes q)
    (hslots : ∀ i r, Entry keccak S tr (p ++ [i] ++ r) ((ts i).nodeAt r) (set.nodes (p ++ [i] ++ r)) (set₁.nodes (p ++ [i] ++ r)))
    (hself : Entry keccak S tr p (some (.full ts)) (set₁.nodes p) (set'.nodes p))
    (hrest : ∀ q, q ≠ p → set'.nodes q = set₁.nodes q) :
    Commits keccak S tr p (.full ts) set set' where
  frame q hq := by
    rw [hrest q fun heq => hq (heq ▸ prefix_rfl)]
    exact hframe q fun i hpre => hq ((prefix_append p [i]).trans hpre)
  entry r := by
    cases r with
    | nil =>
      have hout : ∀ i, ¬ p ++ [i] <+: p := fun i hpre => by
        have := hpre.length_le
        rw [length_append, length_singleton] at this
        omega
      rw [append_nil, ← hframe p hout]
      exact hself
    | cons i r =>
      have hne : p ++ i :: r ≠ p := fun heq => by
        cases self_eq_append_right.mp heq.symm
      have hassoc : p ++ i :: r = p ++ [i] ++ r := by
        rw [append_assoc]
        rfl
      rw [hrest _ hne, hassoc]
      exact hslots i r

end Entries

/-! ## Storing a node -/

section Store

variable {keccak : Bytes → Hash} {S : Path → TrieTree → Prop} {tr : Tracer} {collectLeaf : Bool}

@[simp] theorem addNode_nodes_self (set : NodeSet) (p : Path) (n : SetNode) :
    (set.addNode p n).nodes p = some n := update_self _ _ _

theorem addNode_nodes_of_ne (h : q ≠ p) (set : NodeSet) (n : SetNode) :
    (set.addNode p n).nodes q = set.nodes q := update_of_ne h _ _

variable (tr collectLeaf) in
theorem store_big (set : NodeSet) (p : Path) (t : TrieTree) {n : Collapsed}
    (hn : n.encode = enc keccak t) :
    ∃ set', store tr collectLeaf set p (some (keccak (enc keccak t))) n =
        (set', .hash (keccak (enc keccak t))) ∧
      set'.nodes = Function.update set.nodes p (some (live keccak t)) := by
  refine ⟨_, rfl, ?_⟩
  rw [hn]
  split
  · split
    · rfl
    · rfl
  · rfl

theorem entry_big (h : Standalone keccak p t) (e : Option SetNode) :
    Entry keccak S tr p (some t) e (some (live keccak t)) where
  absent hnone := by cases hnone
  big u hu _ := by
    cases hu
    exact .inl rfl
  small u hu hsmall := by
    cases hu
    exact absurd h hsmall

variable (S tr) in
theorem entry_small (h : ¬ Standalone keccak p t) (e : Option SetNode) :
    Entry keccak S tr p (some t) e (if (tr.accessList p).isSome then some newDeleted else e) where
  absent hnone := by cases hnone
  big u hu hbig := by
    cases hu
    exact absurd hbig h
  small u hu _ := by
    by_cases hread : (tr.accessList p).isSome = true
    · rw [if_pos hread]
      exact .inl ⟨hread, rfl⟩
    · rw [if_neg hread]
      exact .inr ⟨rfl, fun _ => Option.not_isSome_iff_eq_none.mp hread⟩

variable (tr collectLeaf) in
/-- `store` at a node whose flags fit. -/
theorem store_spec {n : Collapsed} (hf : FlagsOk keccak S p t f)
    (hcached : Standalone keccak p t → f.hash ≠ none) (hn : n.encode = enc keccak t) (set : NodeSet) :
    ∃ set' c, store tr collectLeaf set p f.hash n = (set', c) ∧
      Entry keccak S tr p (some t) (set.nodes p) (set'.nodes p) ∧
      (∀ q, q ≠ p → set'.nodes q = set.nodes q) ∧
      (Standalone keccak p t → c = .hash (keccak (enc keccak t))) ∧
      (¬ Standalone keccak p t → c.encode = enc keccak t) := by
  cases hfh : f.hash with
  | some h =>
    obtain ⟨rfl, hs⟩ := hf.hash h hfh
    obtain ⟨set', hset', hnodes⟩ := store_big tr collectLeaf set p t hn
    refine ⟨set', _, hset', ?_, ?_, fun _ => rfl, fun h => absurd hs h⟩
    · rw [hnodes, update_self]
      exact entry_big hs _
    · intro q hq
      rw [hnodes, update_of_ne hq]
  | none =>
    have hs : ¬ Standalone keccak p t := fun hs => hcached hs hfh
    refine ⟨_, n, rfl, ?_, ?_, fun h => absurd h hs, fun _ => hn⟩
    · have h := entry_small S tr hs (set.nodes p)
      split
      · rename_i hread
        rw [if_pos hread] at h
        rw [addNode_nodes_self]
        exact h
      · rename_i hread
        rw [if_neg hread] at h
        exact h
    · intro q hq
      split
      · exact addNode_nodes_of_ne hq set newDeleted
      · rfl

/-! ## The walk -/

/-- The committer's result on a node at `p` for `t`. -/
def CommitSpec (keccak : Bytes → Hash) (S : Path → TrieTree → Prop) (tr : Tracer) (p : Path)
    (t : TrieTree) (set : NodeSet) (out : Option (NodeSet × Collapsed)) : Prop :=
  ∃ set' c, out = some (set', c) ∧ Commits keccak S tr p t set set' ∧
    (Standalone keccak p t → c = .hash (keccak (enc keccak t))) ∧
    (¬ Standalone keccak p t → c.encode = enc keccak t)

theorem encode_child (hp : p ≠ []) (ht : t.isNode = true) {c : Collapsed}
    (hbig : Standalone keccak p t → c = .hash (keccak (enc keccak t)))
    (hsmall : ¬ Standalone keccak p t → c.encode = enc keccak t) : c.encode = ref keccak t := by
  by_cases ha : apart t (enc keccak t) = true
  · rw [ref_of_apart ha, hbig (.inr (apart_iff.mp ha).2)]
    rfl
  · rw [ref_of_not_apart ha, hsmall (not_standalone hp ht ha)]

theorem commitLoop_cons_skip (h : (ns i).Skipped) (set : NodeSet)
    (cs : Nibble → Collapsed) (is : List Nibble) :
    commitLoop com ns set cs (i :: is) = commitLoop com ns set cs is := by
  rcases h with hn | ⟨h, hn⟩
  · rw [commitLoop, hn]
  · rw [commitLoop, hn]

theorem commitLoop_cons (h : ¬ (ns i).Skipped) (set : NodeSet)
    (cs : Nibble → Collapsed) (is : List Nibble) :
    commitLoop com ns set cs (i :: is) = match com i set with
      | none => none
      | some (set, c) => commitLoop com ns set (Function.update cs i c) is := by
  rw [commitLoop]
  cases hn : ns i with
  | nil => exact absurd (.inl hn) h
  | hash h' => exact absurd (.inr ⟨h', hn⟩) h
  | value v => rfl
  | short k m f => rfl
  | full ms f => rfl

/-- Paths below different children are different. -/
theorem not_below_other {i j : Nibble} (h : i ≠ j) (r : Path) : ¬ p ++ [i] <+: p ++ [j] ++ r := by
  rintro hpre
  rw [append_assoc, prefix_append_right_inj] at hpre
  obtain ⟨r', hr'⟩ := hpre
  cases hr'
  exact h rfl

variable (keccak S tr) in
/-- The children of a branch can be committed one by one. -/
def ChildCommits (p : Path) (ns : Nibble → Node) (ts : Nibble → TrieTree)
    (com : Nibble → NodeSet → Option (NodeSet × Collapsed)) : Prop :=
  ∀ i, i ≠ term → ¬ (ns i).Skipped → ∀ set, ∃ set' c, com i set = some (set', c) ∧
    Commits keccak S tr (p ++ [i]) (ts i) set set' ∧ c.encode = ref keccak (ts i)

/-- One child after another, each committed by itself. -/
theorem commitLoop_spec
    (hskip : ∀ i, (ns i).Skipped → ∀ set, Commits keccak S tr (p ++ [i]) (ts i) set set)
    (hcom : ChildCommits keccak S tr p ns ts com) :
    ∀ (is : List Nibble) (set : NodeSet) (cs : Nibble → Collapsed), is.Nodup →
      term ∉ is → (∀ i, i ∈ is → (ns i).Skipped → (cs i).encode = ref keccak (ts i)) →
      ∃ set' cs', commitLoop com ns set cs is = some (set', cs') ∧
        (∀ q, (∀ i ∈ is, ¬ p ++ [i] <+: q) → set'.nodes q = set.nodes q) ∧
        (∀ i ∈ is, ∀ r, Entry keccak S tr (p ++ [i] ++ r) ((ts i).nodeAt r)
          (set.nodes (p ++ [i] ++ r)) (set'.nodes (p ++ [i] ++ r))) ∧
        (∀ i ∈ is, (cs' i).encode = ref keccak (ts i)) ∧ (∀ i, i ∉ is → cs' i = cs i)
  | [], set, cs, _, _, _ => by
    refine ⟨set, cs, rfl, fun _ _ => rfl, ?_, ?_, fun _ _ => rfl⟩
    · exact fun i hi => absurd hi not_mem_nil
    · exact fun i hi => absurd hi not_mem_nil
  | i :: is, set, cs, hnodup, hterm, hcs => by
    rw [nodup_cons] at hnodup
    rw [mem_cons, not_or] at hterm
    -- the step for `i` leads to a set and a child, the rest of the loop goes on there
    have hstep : ∃ set₁ cs₁, commitLoop com ns set cs (i :: is) =
        commitLoop com ns set₁ cs₁ is ∧ Commits keccak S tr (p ++ [i]) (ts i) set set₁ ∧
        (cs₁ i).encode = ref keccak (ts i) ∧ ∀ j, j ≠ i → cs₁ j = cs j := by
      by_cases hskipped : (ns i).Skipped
      · exact ⟨set, cs, commitLoop_cons_skip hskipped set cs is, hskip i hskipped set,
          hcs i mem_cons_self hskipped, fun _ _ => rfl⟩
      obtain ⟨set', c, hc, hcommits, henc⟩ := hcom i (Ne.symm hterm.1) hskipped set
      refine ⟨set', Function.update cs i c, ?_, hcommits, ?_,
        fun j hj => update_of_ne hj _ _⟩
      · rw [commitLoop_cons hskipped, hc]
      · rw [update_self]
        exact henc
    obtain ⟨set₁, cs₁, hloop, hcommits, henc, hother⟩ := hstep
    have hne : ∀ j ∈ is, j ≠ i := fun j hj heq => hnodup.1 (heq ▸ hj)
    obtain ⟨set', cs', hrest, hframe, hentry, hencs, hkeep⟩ :=
      commitLoop_spec hskip hcom is set₁ cs₁ hnodup.2 hterm.2 (by
        intro j hj hskipped
        rw [hother j (hne j hj)]
        exact hcs j (mem_cons_of_mem i hj) hskipped)
    refine ⟨set', cs', hloop.trans hrest, ?_, ?_, ?_, ?_⟩
    · intro q hq
      rw [forall_mem_cons] at hq
      rw [hframe q hq.2, hcommits.frame q hq.1]
    · rw [forall_mem_cons]
      constructor
      · intro r
        rw [hframe _ fun j hj => not_below_other (hne j hj) r]
        exact hcommits.entry r
      · intro j hj r
        have := hentry j hj r
        rwa [hcommits.frame _ (not_below_other (hne j hj).symm r)] at this
    · rw [forall_mem_cons]
      refine ⟨?_, hencs⟩
      rw [hkeep i hnodup.1]
      exact henc
    · intro j hj
      rw [mem_cons, not_or] at hj
      rw [hkeep j hj.2, hother j hj.1]

/-- Below an embedded node everything is embedded. -/
theorem child_small (hc : c.isNode = true) (hlt : (ref keccak c).length < (enc keccak t).length)
    (hq : q ≠ []) (h : ¬ Standalone keccak p t) : ¬ Standalone keccak q c := by
  rintro (hnil | hlen)
  · exact hq hnil
  · rw [ref_of_apart (apart_iff.mpr ⟨hc, hlen⟩), length_writeBytes_hash] at hlt
    exact h (.inr (by omega))

/-- A child has its hash when its parent has. -/
theorem cached_child (hq : q ≠ []) (hc : c.isNode = true)
    (hlt : (ref keccak c).length < (enc keccak t).length)
    (hcached : Standalone keccak p t → f.hash ≠ none) (hset : f.hash ≠ none → Settled keccak n c)
    (hs : Standalone keccak q c) : Cached n := by
  by_cases hp : Standalone keccak p t
  · rcases hs with hnil | hlen
    · exact absurd hnil hq
    · exact hset (hcached hp) hlen
  · exact absurd hs (child_small hc hlt hq hp)

/-- A node that is in the store with its hash. -/
theorem commitSpec_clean (hS : StoreOk keccak S) (ht : t.isNode = true) {h : Hash}
    (hf : FlagsOk keccak S p t f) (hc : cleanHash f = some h) (set : NodeSet) :
    CommitSpec keccak S tr p t set (some (set, .hash h)) := by
  unfold cleanHash at hc
  split at hc
  · cases hc
  · rename_i hd
    have hs := hf.clean (by rw [hc]; exact Option.some_ne_none _) (Bool.eq_false_iff.mpr hd)
    rw [(hf.hash h hc).1]
    exact ⟨set, _, rfl, commits_stored hS ht hs set, fun _ => rfl,
      fun h => absurd (hS.standalone hs) h⟩

theorem mem_childSlots : i ∈ childSlots ↔ i ≠ term := by
  constructor
  · intro hi
    obtain ⟨j, -, rfl⟩ := mem_map.mp hi
    exact castSucc_ne_term j
  · intro hi
    have hlt : i.val < 16 := Fin.lt_last_iff_ne_last.mpr hi
    exact mem_map.mpr ⟨⟨i.val, hlt⟩, mem_finRange _, rfl⟩

theorem nodup_childSlots : childSlots.Nodup :=
  (nodup_finRange 16).map (Fin.castSucc_injective 16)

/-- A branch, once its children can be committed one by one in some order. -/
theorem commit_branch_spec (hS : StoreOk keccak S)
    (hns : ∀ i, Rep keccak S (p ++ [i]) (ns i) (ts i)) (hf : FlagsOk keccak S p (.full ts) f)
    (ht : TrieShape N (.full ts)) (hcached : Standalone keccak p (.full ts) → f.hash ≠ none)
    (hcom : ChildCommits keccak S tr p ns ts com) {order : List Nibble} (horder : order.Perm childSlots) (set : NodeSet) :
    CommitSpec keccak S tr p (.full ts) set
      (match commitLoop com ns set (fun i => (ns i).raw) order with
      | none => none
      | some (set, cs) => some (store tr collectLeaf set p f.hash (.full cs))) := by
  have hmem : ∀ {i}, i ∈ order ↔ i ≠ term := fun {i} => by
    rw [horder.mem_iff, mem_childSlots]
  have hskip : ∀ i, (ns i).Skipped → (∀ set, Commits keccak S tr (p ++ [i]) (ts i) set set) ∧
        (ns i).raw.encode = ref keccak (ts i) := by
    rintro i (hn | ⟨h, hn⟩)
    · have hrep := hns i
      rw [hn] at hrep
      rw [hn, hrep.nil_tree]
      exact ⟨commits_nil _, rfl⟩
    · have hrep := hns i
      rw [hn] at hrep ⊢
      generalize ts i = u at hrep
      cases hrep with
      | hash hnode hlen hs =>
        refine ⟨commits_stored hS hnode hs, ?_⟩
        rw [ref_of_apart (apart_iff.mpr ⟨hnode, hlen⟩)]
        rfl
  have hterm : (∀ r, (ts term).nodeAt r = none) ∧ (ns term).raw.encode = ref keccak (ts term) := by
    have hrep := hns term
    rcases ht.valueSlot with hnil | ⟨v, -, hv⟩
    · rw [hnil] at hrep ⊢
      rw [hrep.nil_node]
      exact ⟨fun _ => rfl, rfl⟩
    · rw [hv] at hrep ⊢
      rw [hrep.value_node]
      exact ⟨fun _ => rfl, rfl⟩
  obtain ⟨set₁, cs, hloop, hframe, hentry, hencs, hkeep⟩ :=
    commitLoop_spec (fun i hi => (hskip i hi).1) hcom order set (fun i => (ns i).raw)
      (horder.nodup_iff.mpr nodup_childSlots) (fun h => hmem.mp h rfl)
      (fun i _ hi => (hskip i hi).2)
  have hencode : (Collapsed.full cs).encode = enc keccak (.full ts) := by
    rw [Collapsed.encode, enc_full]
    congr 2
    funext i
    by_cases hi : i = term
    · subst hi
      rw [hkeep term fun h => hmem.mp h rfl]
      exact hterm.2
    · exact hencs i (hmem.mpr hi)
  obtain ⟨set', c', hstore, hself, hrest, hbig, hsmall⟩ :=
    store_spec tr collectLeaf hf hcached hencode set₁
  simp only [hloop, hstore]
  refine ⟨set', c', rfl, commits_full ?_ ?_ hself hrest, hbig, hsmall⟩
  · intro q hq
    exact hframe q fun i _ => hq i
  · intro i r
    by_cases hi : i = term
    · subst hi
      rw [hterm.1 r, hframe]
      · exact entry_absent _ _
      · exact fun j hj => not_below_other (hmem.mp hj) r
    · exact hentry i (hmem.mpr hi) r

variable (tr collectLeaf) in
/-- The committer on a hashed node that stands for a tree. -/
theorem commit_spec (hS : StoreOk keccak S) (h : Rep keccak S p n t) (ht : TrieShape N t)
    (hcached : Standalone keccak p t → Cached n) (set : NodeSet) :
    CommitSpec keccak S tr p t set (commit tr collectLeaf p n set) := by
  induction h generalizing N set with
  | nil => exact absurd rfl ht.ne_nil
  | value p v => cases ht
  | hash hnode hlen hs =>
    exact ⟨set, _, rfl, commits_stored hS hnode hs set, fun _ => rfl,
      fun h => absurd (.inr hlen) h⟩
  | @short p k n t f hn hf hset ih =>
    rw [commit]
    cases hclean : cleanHash f with
    | some h => exact commitSpec_clean hS rfl hf hclean set
    | none =>
      have hk := ht.word.2
      have hpk : p ++ k ≠ [] := append_ne_nil_of_right_ne_nil p hk
      -- the child, committed or as it is
      have hchild : ∃ set₁ c, (if n.isFull = true then
          commit tr collectLeaf (p ++ k) n set else some (set, n.raw)) = some (set₁, c) ∧
          Commits keccak S tr (p ++ k) t set set₁ ∧ c.encode = ref keccak t := by
        cases ht with
        | leaf _ _ _ =>
          rw [hn.value_node]
          exact ⟨set, _, rfl, commits_value _ _ set, rfl⟩
        | ext _ _ _ hts =>
          by_cases hfull : n.isFull = true
          · rw [if_pos hfull]
            obtain ⟨set₁, c, hc, hcommits, hbig, hsmall⟩ := ih hts
              (cached_child hpk rfl (length_ref_lt_enc_short keccak k _) hcached hset) set
            exact ⟨set₁, c, hc, hcommits, encode_child hpk rfl hbig hsmall⟩
          cases hn with
          | hash hnode hlen hs =>
            refine ⟨set, _, rfl, commits_stored hS rfl hs set, ?_⟩
            rw [ref_of_apart (apart_iff.mpr ⟨hnode, hlen⟩)]
            rfl
          | full => exact absurd rfl hfull
      obtain ⟨set₁, c, hc, hcommits, henc⟩ := hchild
      have hencode : (Collapsed.short (hexToCompact k) c).encode = enc keccak (.short k t) := by
        rw [Collapsed.encode, henc, enc_short]
      obtain ⟨set', c', hstore, hentry, hrest, hbig, hsmall⟩ :=
        store_spec tr collectLeaf hf hcached hencode set₁
      simp only [hc, hstore]
      exact ⟨set', c', rfl, commits_short hk hcommits hentry hrest, hbig, hsmall⟩
  | @full p ns ts f hns hf hset ih =>
    rw [commit]
    cases hclean : cleanHash f with
    | some h => exact commitSpec_clean hS rfl hf hclean set
    | none =>
      refine commit_branch_spec hS hns hf ht hcached (fun i hi hne set => ?_) (List.Perm.refl _) set
      have hpi : p ++ [i] ≠ [] := concat_ne_nil i p
      rcases ht.slot hi with hnil | hshape
      · have hrep := hns i
        rw [hnil] at hrep
        exact absurd (.inl hrep.nil_node) hne
      · obtain ⟨set', c, hc, hcommits, hbig, hsmall⟩ := ih i hshape
          (cached_child hpi hshape.isNode (length_ref_lt_enc_full keccak ts i) hcached
            fun hne => hset hne i) set
        exact ⟨set', c, hc, hcommits, encode_child hpi hshape.isNode hbig hsmall⟩

/-- Committing into an empty set and merging is committing. -/
theorem commits_mergeSet {child : NodeSet} (set : NodeSet)
    (h : Commits keccak S tr p t newNodeSet child) :
    Commits keccak S tr p t set (set.mergeSet child) where
  frame q hq := by
    have hnone : child.nodes q = none := h.frame q hq
    rw [NodeSet.mergeSet]
    simp only [hnone, Option.none_or]
  entry r := by
    have he := h.entry r
    have hnew : newNodeSet.nodes (p ++ r) = none := rfl
    rw [hnew] at he
    show Entry keccak S tr (p ++ r) (t.nodeAt r) (set.nodes (p ++ r))
      ((child.nodes (p ++ r)).or (set.nodes (p ++ r)))
    refine ⟨fun hnone => ?_, fun u hu hs => ?_, fun u hu hs => ?_⟩
    · rw [he.absent hnone, Option.none_or]
    · rcases he.big u hu hs with heq | ⟨hstored, heq⟩
      · rw [heq]
        exact .inl rfl
      · rw [heq]
        exact .inr ⟨hstored, Option.none_or⟩
    · rcases he.small u hu hs with ⟨hread, heq⟩ | ⟨heq, hread⟩
      · rw [heq]
        exact .inl ⟨hread, rfl⟩
      · rw [heq]
        exact .inr ⟨Option.none_or, hread⟩

/-- A schedule in which every child is committed once. -/
def Schedule.Ok : Schedule → Prop
  | .sequential => True
  | .parallel order => order.Perm childSlots

variable (tr collectLeaf) in
/-- The committer at the root, with or without threads. -/
theorem commitRoot_spec (hS : StoreOk keccak S) (h : Rep keccak S [] n t) (ht : TrieShape N t)
    (hcached : Cached n) {schedule : Schedule} (hschedule : schedule.Ok) (set : NodeSet) :
    CommitSpec keccak S tr [] t set (commitRoot tr collectLeaf schedule n set) := by
  have hseq := commit_spec tr collectLeaf hS h ht (fun _ => hcached) set
  cases schedule with
  | sequential =>
    cases n <;> exact hseq
  | parallel order =>
    cases h with
    | nil => exact absurd rfl ht.ne_nil
    | value p v => cases ht
    | hash => exact hseq
    | short => exact hseq
    | @full _ ns ts f hns hf hset =>
      rw [commitRoot]
      cases hclean : cleanHash f with
      | some h => exact commitSpec_clean hS rfl hf hclean set
      | none =>
        refine commit_branch_spec hS hns hf ht (fun _ => hcached)
          (fun i hi hne set => ?_) hschedule set
        have hpi : ([] : Path) ++ [i] ≠ [] := cons_ne_nil i []
        rcases ht.slot hi with hnil | hshape
        · have hrep := hns i
          rw [hnil] at hrep
          exact absurd (.inl hrep.nil_node) hne
        obtain ⟨child, c, hc, hcommits, hbig, hsmall⟩ :=
          commit_spec tr collectLeaf hS (hns i) hshape
            (fun hs => hset hcached i (hs.resolve_left hpi)) newNodeSet
        refine ⟨set.mergeSet child, c, ?_, commits_mergeSet set hcommits,
          encode_child hpi hshape.isNode hbig hsmall⟩
        simp only [nil_append] at hc
        simp only [hc]

end Store

end GoEthereum.Trie

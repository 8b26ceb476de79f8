import GoEthereum.Trie.Tracking

/-!
# The trie a node stands for

`Rep p n t` says that the node `n`, at path `p` from the root, stands for the tree
`t`: what is in memory agrees with `t`, and what is behind a hash node is a tree of
the store `S`, which assigns to paths the trees stored there. A cached hash is the
hash of the tree; a clean node with a hash is in the store, one without is embedded in
its parent; and below a node with a cached hash every child that has a hash has it
cached, which the committer relies on.

`Sim` is what every operation on a node establishes: the new node stands for the new
tree, and the tracer has recorded the difference.
-/

namespace GoEthereum.Trie

open Radix (Tree Terminated Word)
open Radix.Tree List Function

variable {N : Nat} {n : Node} {p : Path} {r : TrieReader} {t : TrieTree}

variable {ns : Nibble → Node} {ts : Nibble → TrieTree} {n' : Node} {tr tr' : Tracer} {t' : TrieTree}

section Rep

variable (keccak : Bytes → Hash) (S : Path → TrieTree → Prop)

/-- The root, and every node of 32 bytes, is stored under its own hash. -/
def Standalone (p : Path) (t : TrieTree) : Prop := p = [] ∨ 32 ≤ (enc keccak t).length

/-- A node that has a hash cache has it filled. -/
def Cached : Node → Prop
  | .short _ _ f => f.hash ≠ none
  | .full _ f => f.hash ≠ none
  | _ => True

/-- A child that is stored apart has its hash. -/
def Settled (n : Node) (t : TrieTree) : Prop := 32 ≤ (enc keccak t).length → Cached n

/-- The flags of a node for a tree at a path. -/
structure FlagsOk (p : Path) (t : TrieTree) (f : NodeFlag) : Prop where
  hash : ∀ h, f.hash = some h → h = keccak (enc keccak t) ∧ Standalone keccak p t
  clean : f.hash ≠ none → f.dirty = false → S p t
  embedded : f.hash = none → f.dirty = false → ¬ Standalone keccak p t

inductive Rep : Path → Node → TrieTree → Prop where
  | nil (p : Path) : Rep p .nil .nil
  | value (p : Path) (v : Bytes) : Rep p (.value v) (.value v)
  | hash {p : Path} {t : TrieTree} : t.isNode = true → 32 ≤ (enc keccak t).length → S p t →
      Rep p (.hash (keccak (enc keccak t))) t
  | short {p k : Path} {n : Node} {t : TrieTree} {f : NodeFlag} :
      Rep (p ++ k) n t → FlagsOk keccak S p (.short k t) f →
      (f.hash ≠ none → Settled keccak n t) → Rep p (.short k n f) (.short k t)
  | full {p : Path} {ns : Nibble → Node} {ts : Nibble → TrieTree} {f : NodeFlag} :
      (∀ i, Rep (p ++ [i]) (ns i) (ts i)) → FlagsOk keccak S p (.full ts) f →
      (f.hash ≠ none → ∀ i, Settled keccak (ns i) (ts i)) → Rep p (.full ns f) (.full ts)

/-- A store of tries: it has the nodes below a node it has, and only standalone ones. -/
structure StoreOk : Prop where
  closed : ∀ {p r : Path} {t u : TrieTree}, S p t → t.nodeAt r = some u → r ≠ [] →
    32 ≤ (enc keccak u).length → S (p ++ r) u
  standalone : ∀ {p : Path} {t : TrieTree}, S p t → Standalone keccak p t

/-- The store of a single trie: the nodes below a node are the ones stored there. -/
def Exact : Prop :=
  ∀ {p r : Path} {t u : TrieTree}, S p t → S (p ++ r) u → t.nodeAt r = some u

/-- A reader that returns nothing wrong: a stored node, or an error. -/
def Honest (r : TrieReader) : Prop :=
  ∀ p t, S p t → r.node p (keccak (enc keccak t)) = .ok (enc keccak t) ∨
      r.node p (keccak (enc keccak t)) = .error (.missing r.owner (keccak (enc keccak t)) p)

/-- A reader that has every stored node. -/
def Serves (r : TrieReader) : Prop :=
  ∀ p t, S p t → r.node p (keccak (enc keccak t)) = .ok (enc keccak t)

/-- The error for a stored node that the reader does not have. -/
def Lacks (r : TrieReader) (e : Err) : Prop :=
  ∃ p t, S p t ∧ e = .missing r.owner (keccak (enc keccak t)) p ∧
    r.node p (keccak (enc keccak t)) = .error e

variable {keccak S}

theorem Serves.honest (h : Serves keccak S r) : Honest keccak S r :=
  fun p t hs => Or.inl (h p t hs)

theorem Serves.not_lacks (h : Serves keccak S r) {e : Err} : ¬ Lacks keccak S r e := by
  rintro ⟨p, t, hs, -, he⟩
  rw [h p t hs] at he
  cases he

theorem flagsOk_new (p : Path) (t : TrieTree) : FlagsOk keccak S p t newFlag where
  hash h heq := by cases heq
  clean hne := absurd rfl hne
  embedded _ heq := by cases heq

/-- The flags of an embedded node. -/
theorem flagsOk_embedded (h : ¬ Standalone keccak p t) :
    FlagsOk keccak S p t { hash := none, dirty := false } where
  hash h' heq := by cases heq
  clean hne := absurd rfl hne
  embedded _ _ := h

/-! ## Inversion -/

theorem Rep.nil_tree (h : Rep keccak S p .nil t) : t = .nil := by
  cases h
  rfl

theorem Rep.nil_node (h : Rep keccak S p n .nil) : n = .nil := by
  cases h with
  | nil => rfl
  | hash hnode => cases hnode

theorem Rep.value_node {v : Bytes} (h : Rep keccak S p n (.value v)) : n = .value v := by
  cases h with
  | value => rfl
  | hash hnode => cases hnode

theorem Rep.isNil (h : Rep keccak S p n t) : n.isNil = t.isNil := by
  cases h with
  | hash hnode =>
    cases t with
    | nil => cases hnode
    | value v => rfl
    | short k c => rfl
    | full ts => rfl
  | nil => rfl
  | value => rfl
  | short => rfl
  | full => rfl

/-- A node with fresh flags. -/
theorem Rep.short_new {k : Path} (h : Rep keccak S (p ++ k) n t) :
    Rep keccak S p (.short k n newFlag) (.short k t) :=
  .short h (flagsOk_new p _) fun hne => absurd rfl hne

theorem Rep.full_new (h : ∀ i, Rep keccak S (p ++ [i]) (ns i) (ts i)) :
    Rep keccak S p (.full ns newFlag) (.full ts) :=
  .full h (flagsOk_new p _) fun hne => absurd rfl hne

theorem rep_update (h : ∀ i, Rep keccak S (p ++ [i]) (ns i) (ts i)) {a : Nibble}
    (h' : Rep keccak S (p ++ [a]) n' t') (i : Nibble) :
    Rep keccak S (p ++ [i]) (Function.update ns a n' i) (Function.update ts a t' i) := by
  by_cases hi : i = a
  · subst hi
    rw [update_self, update_self]
    exact h'
  · rw [update_of_ne hi, update_of_ne hi]
    exact h i

/-! ## Decoded nodes -/

/-- A child as it stands in a decoded node, given what is below it. -/
theorem rep_refNode (hself : t.isNode = true → 32 ≤ (enc keccak t).length → S p t)
    (hembedded : ¬ apart t (enc keccak t) = true → Rep keccak S p (firstNode keccak none t) t) :
    Rep keccak S p (refNode keccak t) t := by
  by_cases ha : apart t (enc keccak t) = true
  · rw [refNode_of_apart ha]
    rw [apart_iff] at ha
    exact .hash ha.1 ha.2 (hself ha.1 ha.2)
  · rw [refNode_of_not_apart ha]
    exact hembedded ha

theorem not_standalone (hp : p ≠ []) (hn : t.isNode = true) (h : ¬ apart t (enc keccak t) = true) :
    ¬ Standalone keccak p t := by
  rintro (hnil | hlen)
  · exact hp hnil
  · exact h (apart_iff.mpr ⟨hn, hlen⟩)

theorem settled_refNode (t : TrieTree) : Settled keccak (refNode keccak t) t := by
  intro hlen
  cases ht : t.isNode with
  | true =>
    rw [refNode_of_apart (apart_iff.mpr ⟨ht, hlen⟩)]
    trivial
  | false =>
    cases t with
    | nil => trivial
    | value v => trivial
    | short k c => cases ht
    | full ts => cases ht

/-- A decoded node stands for the tree it was encoded from. -/
theorem rep_firstNode (h : TrieShape N t)
    (hstore : ∀ r u, r ≠ [] → t.nodeAt r = some u → 32 ≤ (enc keccak u).length → S (p ++ r) u)
    {hash : Option Hash} (hf : FlagsOk keccak S p t { hash := hash, dirty := false }) :
    Rep keccak S p (firstNode keccak hash t) t := by
  induction h generalizing p hash with
  | @leaf _ k v hk _ _ =>
    rw [firstNode_short]
    exact .short (.value _ v) hf fun _ => settled_refNode _
  | @ext _ _ k ts hk _ _ hts ih =>
    rw [firstNode_short]
    have hpk : p ++ k ≠ [] := append_ne_nil_of_right_ne_nil p hk
    refine .short (rep_refNode ?_ fun ha =>
      ih ?_ (flagsOk_embedded (not_standalone hpk rfl ha))) hf fun _ => settled_refNode _
    · intro hnode hlen
      refine hstore k _ hk ?_ hlen
      have := nodeAt_short_append hk (Tree.full ts) []
      rw [append_nil] at this
      rw [this, nodeAt_self hnode]
    · intro r u hr hu hlen
      rw [append_assoc]
      refine hstore (k ++ r) u (append_ne_nil_of_left_ne_nil hk r) ?_ hlen
      rw [nodeAt_short_append hk, hu]
  | @full _ _ ts _ hts hval ih =>
    rw [firstNode_full]
    refine .full (fun i => ?_) hf fun _ i => settled_refNode _
    by_cases hi : i = term
    · subst hi
      rcases hval with hnil | ⟨v, -, hv⟩
      · rw [hnil]
        exact .nil _
      · rw [hv]
        exact .value _ v
    · by_cases hnil : ts i = .nil
      · rw [hnil]
        exact .nil _
      · have hpi : p ++ [i] ≠ [] := concat_ne_nil i p
        refine rep_refNode ?_ fun ha => ih i hi hnil ?_
          (flagsOk_embedded (not_standalone hpi (hts i hi hnil).isNode ha))
        · intro hnode hlen
          exact hstore [i] _ (cons_ne_nil i []) (nodeAt_self hnode) hlen
        · intro r u hr hu hlen
          rw [append_assoc]
          exact hstore (i :: r) u (cons_ne_nil i r) hu hlen

/-- Whatever is stored apart below a decoded node is behind a hash. -/
theorem hashAbove_firstNode {u : TrieTree} (h : TrieShape N t) {r : Path} (hr : r ≠ [])
    (hu : t.nodeAt r = some u) (hlen : 32 ≤ (enc keccak u).length) (hash : Option Hash) :
    HashAbove (firstNode keccak hash t) r := by
  -- below a child that is itself stored apart, or is embedded
  have step : ∀ {c : TrieTree} {r : Path}, c.nodeAt r = some u →
      (r ≠ [] → HashAbove (firstNode keccak none c) r) → HashAbove (refNode keccak c) r := by
    intro c r hc hdeep
    by_cases ha : apart c (enc keccak c) = true
    · rw [refNode_of_apart ha]
      trivial
    rw [refNode_of_not_apart ha]
    refine hdeep ?_
    rintro rfl
    have hnode : c.isNode = true := by
      cases c with
      | nil => cases hc
      | value v => cases hc
      | short k c => rfl
      | full ts => rfl
    rw [nodeAt_self hnode] at hc
    cases hc
    exact ha (apart_iff.mpr ⟨hnode, hlen⟩)
  induction h generalizing r hash with
  | @leaf _ k v hk _ _ =>
    have hnode : HasNode (Tree.short k (Tree.value v)) r := by rw [HasNode, hu]; rfl
    rw [hasNode_short] at hnode
    rcases hnode with hnil | ⟨r', -, hval⟩
    · exact absurd hnil hr
    · exact absurd hval (hasNode_value v r')
  | @ext _ _ k ts hk _ _ hts ih =>
    have hnode : HasNode (Tree.short k (Tree.full ts)) r := by rw [HasNode, hu]; rfl
    rw [hasNode_short] at hnode
    rcases hnode with hnil | ⟨r', rfl, -⟩
    · exact absurd hnil hr
    · rw [nodeAt_short_append hk] at hu
      rw [firstNode_short, hashAbove_short]
      exact ⟨r', rfl, step hu fun hr' => ih hr' hu none⟩
  | @full _ _ ts _ hts hval ih =>
    cases r with
    | nil => exact absurd rfl hr
    | cons a r =>
      have hu' : (ts a).nodeAt r = some u := hu
      rw [firstNode_full, HashAbove]
      refine step hu' fun hr' => ?_
      by_cases ha : a = term
      · subst ha
        rcases hval with hnil | ⟨v, -, hv⟩
        · rw [hnil] at hu'
          cases hu'
        · rw [hv] at hu'
          cases hu'
      · refine ih a ha ?_ hr' hu' none
        rintro hnil
        rw [hnil] at hu'
        cases hu'

end Rep

/-! ## Simulation -/

section Sim

variable (keccak : Bytes → Hash) (S : Path → TrieTree → Prop)

/-- An operation at `p` that turns a node for `t` into one for `t'`. -/
structure Sim (p : Path) (n : Node) (t : TrieTree) (tr : Tracer) (n' : Node)
    (t' : TrieTree) (tr' : Tracer) : Prop where
  rep : Rep keccak S p n' t'
  moves : Moves p t.HasNode t'.HasNode tr tr'
  reads : Reads keccak S p tr tr'
  covers : Exact S → Cover S p n tr → Cover S p n' tr'

variable {keccak S}

theorem Sim.trans {n'' : Node} {t'' : TrieTree} {tr'' : Tracer}
    (h : Sim keccak S p n t tr n' t' tr') (h' : Sim keccak S p n' t' tr' n'' t'' tr'') :
    Sim keccak S p n t tr n'' t'' tr'' where
  rep := h'.rep
  moves := h.moves.trans h'.moves
  reads := h.reads.trans h'.reads
  covers hS hc := h'.covers hS (h.covers hS hc)

/-- A node that stays as it is while only reads happen. -/
theorem Sim.idle (h : Rep keccak S p n t) (hi : Idle keccak S p tr tr') :
    Sim keccak S p n t tr n t tr' where
  rep := h
  moves := hi.moves fun _ => Iff.rfl
  reads := hi.reads
  covers _ hc := hc.mono hi.reads fun _ => id

theorem Sim.short {p k : Path} (hk : k ≠ []) {n n' : Node} {t t' : TrieTree}
    {tr tr' : Tracer} {f f' : NodeFlag} (h : Sim keccak S (p ++ k) n t tr n' t' tr')
    (hrep : Rep keccak S p (.short k n' f') (.short k t')) :
    Sim keccak S p (.short k n f) (.short k t) tr (.short k n' f') (.short k t') tr' where
  rep := hrep
  moves := h.moves.short hk
  reads := h.reads.mono
  covers hS hc := hc.short h.reads.mono (h.covers hS hc.short_child)

theorem Sim.full {p : Path} {a : Nibble} {ns : Nibble → Node} {ts : Nibble → TrieTree}
    {n' : Node} {t' : TrieTree} {tr tr' : Tracer} {f f' : NodeFlag}
    (h : Sim keccak S (p ++ [a]) (ns a) (ts a) tr n' t' tr')
    (hrep : Rep keccak S p (.full (Function.update ns a n') f') (.full (Function.update ts a t'))) :
    Sim keccak S p (.full ns f) (.full ts) tr (.full (Function.update ns a n') f')
      (.full (Function.update ts a t')) tr' where
  rep := hrep
  moves := h.moves.full
  reads := h.reads.mono
  covers hS hc := hc.full h.reads.mono (h.covers hS (hc.full_child a))

variable (keccak) in
theorem idle_onRead (hs : S p t) (tr : Tracer) :
    Idle keccak S p tr (tr.onRead p (enc keccak t)) where
  inserts := rfl
  deletes := rfl
  reads q := by
    by_cases hq : q = p
    · subst hq
      exact .inr ⟨t, prefix_rfl, hs, update_self _ _ _⟩
    · exact .inl (update_of_ne hq _ _)

/-- Resolving a hash node. -/
theorem sim_resolve (hS : StoreOk keccak S) (ht : TrieShape N t) (hs : S p t) (tr : Tracer) :
    Sim keccak S p (.hash (keccak (enc keccak t))) t tr
      (firstNode keccak (some (keccak (enc keccak t))) t) t (tr.onRead p (enc keccak t)) where
  rep := by
    refine rep_firstNode ht (fun r u hr hu hlen => hS.closed hs hu hr hlen) ⟨?_, ?_, ?_⟩
    · intro h heq
      cases heq
      exact ⟨rfl, hS.standalone hs⟩
    · intro _ _
      exact hs
    · intro heq
      cases heq
  moves := (idle_onRead keccak hs tr).moves fun _ => Iff.rfl
  reads := (idle_onRead keccak hs tr).reads
  covers hex _ r u hu := by
    by_cases hr : r = []
    · subst hr
      left
      rw [append_nil, onRead_accessList_self]
      rfl
    right
    have hlen : 32 ≤ (enc keccak u).length := by
      rcases hS.standalone hu with hnil | hlen
      · exact absurd (append_eq_nil_iff.mp hnil).2 hr
      · exact hlen
    exact hashAbove_firstNode ht hr (hex hs hu) hlen _

/-- What `resolveAndTrack` does with a stored node. -/
theorem resolveAndTrack_cases (hr : Honest keccak S r) (hN : N ≤ maxKey) (ht : TrieShape N t)
    (hs : S p t) (tr : Tracer) :
    (r.node p (keccak (enc keccak t)) = .ok (enc keccak t) ∧
      resolveAndTrack r tr (keccak (enc keccak t)) p = (tr.onRead p (enc keccak t),
          .ok (firstNode keccak (some (keccak (enc keccak t))) t))) ∨
    (∃ e, Lacks keccak S r e ∧
      resolveAndTrack r tr (keccak (enc keccak t)) p = (tr, .error e)) := by
  rcases hr p t hs with hok | herr
  · left
    refine ⟨hok, ?_⟩
    rw [resolveAndTrack, hok]
    simp only [decodeNode_enc hN ht]
  · right
    refine ⟨_, ⟨p, t, hs, rfl, herr⟩, ?_⟩
    rw [resolveAndTrack, herr]

end Sim

end GoEthereum.Trie

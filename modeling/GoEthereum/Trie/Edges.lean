import GoEthereum.Trie.RangeProof

/-!
# The edges of a range

What the functions of a range proof do with nodes that stand for a trie: `proofToPath`
resolves the nodes on the way to a key, `unset` and `unsetInternal` cut the tree,
`hasRightElement` looks for an entry to the right of a key. `HashAbove` follows what has
been resolved: after `proofToPath` no hash node is left on the way to the key, and after
`unsetInternal` every hash node is outside the range.
-/

namespace GoEthereum.Trie

open Radix (Tree Terminated Word Keeps)
open Radix.Tree List Function

variable {a : Nibble} {ns : Nibble → Node} {ts : Nibble → TrieTree} {n : Node} {out : Node × Bool}
  {f : NodeFlag} {parent : Parent} {b k l p q r rest : Path} {t : TrieTree}

variable {fuel : Nat} {m val : Node} {key : Path} {c : TrieTree}

theorem HashAbove.append (h : HashAbove n r) (s : Path) : HashAbove n (r ++ s) := by
  induction n generalizing r with
  | nil => exact absurd h (not_hashAbove_nil r)
  | value v => exact absurd h (not_hashAbove_value v r)
  | hash h' => trivial
  | short k n f ih =>
    obtain ⟨r', rfl, h'⟩ := (hashAbove_short k n f r).mp h
    refine (hashAbove_short k n f _).mpr ⟨r' ++ s, append_assoc k r' s, ih h'⟩
  | full ns f ih =>
    obtain ⟨a, r', rfl, h'⟩ := (hashAbove_full ns f r).mp h
    exact (hashAbove_full ns f _).mpr ⟨a, r' ++ s, rfl, ih a h'⟩

section Edges

variable {keccak : Bytes → Hash} {S : Path → TrieTree → Prop} {N : Nat}

/-- The hash node above a path, and what is stored there. -/
theorem Rep.exists_hash (h : Rep keccak S p n t) (hr : HashAbove n r) :
    ∃ q u, q <+: r ∧ HashAbove n q ∧ S (p ++ q) u := by
  induction h generalizing r with
  | nil => exact absurd hr (not_hashAbove_nil r)
  | value _ v => exact absurd hr (not_hashAbove_value v r)
  | @hash p t _ _ hs =>
    refine ⟨[], t, nil_prefix, trivial, ?_⟩
    rwa [append_nil]
  | @short p k n t f _ _ _ ih =>
    obtain ⟨r', rfl, hr'⟩ := (hashAbove_short k n f r).mp hr
    obtain ⟨q, u, hq, hq', hs⟩ := ih hr'
    refine ⟨k ++ q, u, (prefix_append_right_inj k).mpr hq,
      (hashAbove_short k n f _).mpr ⟨q, rfl, hq'⟩, ?_⟩
    rwa [← append_assoc]
  | @full p ns ts f _ _ _ ih =>
    obtain ⟨a, r', rfl, hr'⟩ := (hashAbove_full ns f r).mp hr
    obtain ⟨q, u, hq, hq', hs⟩ := ih a hr'
    refine ⟨a :: q, u, cons_prefix_cons.mpr ⟨rfl, hq⟩,
      (hashAbove_full ns f _).mpr ⟨a, q, rfl, hq'⟩, ?_⟩
    rwa [← singleton_append, ← append_assoc]

/-! ## `proofToPath` -/

/-- A node after what is on the way to a key has been resolved. -/
structure Resolved (keccak : Bytes → Hash) (S : Path → TrieTree → Prop) (p : Path) (n : Node)
    (t : TrieTree) (k : Path) (n' : Node) : Prop where
  rep : Rep keccak S p n' t
  cached : Cached n → Cached n'
  clear : ¬ HashAbove n' k
  above : ∀ r, HashAbove n' r → HashAbove n r

theorem Resolved.short {p q k : Path} {m m' : Node} {c : TrieTree} {f : NodeFlag}
    (h : Resolved keccak S (p ++ q) m c k m') (hf : FlagsOk keccak S p (.short q c) f)
    (hset : f.hash ≠ none → Settled keccak m c) :
    Resolved keccak S p (.short q m f) (.short q c) (q ++ k) (.short q m' f) where
  rep := .short h.rep hf fun hne hlen => h.cached (hset hne hlen)
  cached := id
  clear hr := by
    obtain ⟨r', heq, hr'⟩ := (hashAbove_short q m' f _).mp hr
    rw [← append_cancel_left heq] at hr'
    exact h.clear hr'
  above r hr := by
    obtain ⟨r', rfl, hr'⟩ := (hashAbove_short q m' f r).mp hr
    exact (hashAbove_short q m f _).mpr ⟨r', rfl, h.above r' hr'⟩

theorem Resolved.full {p k : Path} {a : Nibble} {ns : Nibble → Node} {ts : Nibble → TrieTree}
    {m' : Node} {f : NodeFlag} (h : Resolved keccak S (p ++ [a]) (ns a) (ts a) k m')
    (hns : ∀ i, Rep keccak S (p ++ [i]) (ns i) (ts i)) (hf : FlagsOk keccak S p (.full ts) f)
    (hset : f.hash ≠ none → ∀ i, Settled keccak (ns i) (ts i)) :
    Resolved keccak S p (.full ns f) (.full ts) (a :: k) (.full (Function.update ns a m') f) where
  rep := by
    refine .full (fun i => ?_) hf fun hne i hlen => ?_
    · have hrep := rep_update hns h.rep i
      rwa [update_eq_self] at hrep
    · by_cases hi : i = a
      · subst hi
        rw [update_self]
        exact h.cached (hset hne i hlen)
      · rw [update_of_ne hi]
        exact hset hne i hlen
  cached := id
  clear hr := by
    rw [HashAbove, update_self] at hr
    exact h.clear hr
  above r hr := by
    obtain ⟨b, r', rfl, hr'⟩ := (hashAbove_full _ f r).mp hr
    by_cases hb : b = a
    · subst hb
      rw [update_self] at hr'
      exact h.above r' hr'
    · rw [update_of_ne hb] at hr'
      exact hr'

/-- What following a key ends with: the resolved node and the entry, or an error for a node
on the way that the database does not have. -/
inductive PathOut (keccak : Bytes → Hash) (T : TrieTree) (db : ProofDb) (allow : Bool)
    (fuel : Nat) (p : Path) (n : Node) (t : TrieTree) (k : Path) :
    Except ProofErr (Node × Option Bytes) → Prop where
  | found {n' : Node} : Resolved keccak (StoreOf keccak T) p n t k n' →
      (allow = false → t.lookup k ≠ none) →
      PathOut keccak T db allow fuel p n t k (.ok (n', t.lookup k))
  | absent : allow = false → t.lookup k = none →
      PathOut keccak T db allow fuel p n t k (.error .notContained)
  | missing {r : Path} {w : TrieTree} : r <+: k → StoreOf keccak T (p ++ r) w →
      db (keccak (enc keccak w)) = none →
      PathOut keccak T db allow fuel p n t k (.error (.missing (keccak (enc keccak w))))
  | fuel : fuel ≤ k.length → PathOut keccak T db allow fuel p n t k (.error .fuel)

section Path

variable {T : TrieTree} {db : ProofDb} {allow : Bool}

/-- The key leads to nothing. -/
theorem pathOut_nil (h : Resolved keccak (StoreOf keccak T) p n t k n) (hlook : t.lookup k = none) :
    PathOut keccak T db allow fuel p n t k
      (if allow then .ok (n, none) else .error .notContained) := by
  cases allow with
  | false => exact .absent rfl hlook
  | true =>
    have hout : PathOut keccak T db true fuel p n t k (.ok (n, t.lookup k)) :=
      .found h fun h => by cases h
    rwa [hlook] at hout

/-- One node of the way, given what comes of its child. -/
theorem pathOut_step (hdb : Genuine keccak T db) (hN : N ≤ maxKey) (link : Node → Node)
    (hget : Proof.get n k false = some (rest, m)) (hlink : ∀ m', linkChild n k m' = .ok (link m'))
    (hk : k = q ++ rest) (hq : q ≠ []) (hlook : t.lookup k = c.lookup rest)
    (hrep : Rep keccak (StoreOf keccak T) (p ++ q) m c) (hslot : Slot N c rest)
    (hup : ∀ m', Resolved keccak (StoreOf keccak T) (p ++ q) m c rest m' → Resolved keccak (StoreOf keccak T) p n t k (link m'))
    (hsame : link m = n)
    (ih : ∀ m₁, Rep keccak (StoreOf keccak T) (p ++ q) m₁ c → TrieShape N c → Terminated term rest → Loaded m₁ → PathOut keccak T db allow fuel (p ++ q) m₁ c rest (pathLoop db allow fuel m₁ rest)) :
    PathOut keccak T db allow (fuel + 1) p n t k (pathLoop db allow (fuel + 1) n k) := by
  have hlen : rest.length + 1 ≤ k.length := by
    rw [hk, length_append]
    have := length_pos_iff.mpr hq
    omega
  -- what a resolved child leads to
  have hfollow : ∀ m₁, PathOut keccak T db allow fuel (p ++ q) m₁ c rest
        (pathLoop db allow fuel m₁ rest) →
      (∀ m', Resolved keccak (StoreOf keccak T) (p ++ q) m₁ c rest m' →
        Resolved keccak (StoreOf keccak T) (p ++ q) m c rest m') →
      ∀ out, (∀ e, pathLoop db allow fuel m₁ rest = .error e → out = .error e) →
        (∀ child v, pathLoop db allow fuel m₁ rest = .ok (child, v) → out = .ok (link child, v)) →
        PathOut keccak T db allow (fuel + 1) p n t k out := by
    intro m₁ hout hres out herr hok
    generalize pathLoop db allow fuel m₁ rest = sub at hout herr hok
    cases hout with
    | found h hallow =>
      rw [hok _ _ rfl, ← hlook]
      exact .found (hup _ (hres _ h)) fun ha => by rw [hlook]; exact hallow ha
    | absent ha hnone =>
      rw [herr _ rfl]
      exact .absent ha (hlook.trans hnone)
    | @missing r w hr hs hnone =>
      rw [herr _ rfl]
      refine .missing (r := q ++ r) ?_ ?_ hnone
      · rw [hk]
        exact (prefix_append_right_inj q).mpr hr
      · rwa [← append_assoc]
    | fuel hf =>
      rw [herr _ rfl]
      exact .fuel (by omega)
  rw [pathLoop, hget]
  cases hrep with
  | nil =>
    have hnone : t.lookup k = none := by rw [hlook]; rfl
    refine pathOut_nil ?_ hnone
    have hres := hup .nil ⟨.nil _, id, not_hashAbove_nil _, fun _ => id⟩
    rwa [hsame] at hres
  | value _ v =>
    obtain ⟨rfl, hv⟩ := hslot.value
    have hpos : 0 < v.length := length_pos_iff.mpr hv.1
    simp only [hlink, if_pos hpos]
    have hv' : t.lookup k = some v := by rw [hlook]; rfl
    rw [← hv']
    refine .found (hup (.value v) ⟨.value _ v, id, not_hashAbove_value v _, fun _ => id⟩) ?_
    rw [hv']
    exact fun _ => Option.some_ne_none v
  | hash hnode hlen' hs =>
    obtain ⟨hrest, hshape⟩ := hslot.shape hnode
    have hres := sim_resolve (storeOk_storeOf T) hshape hs newTracer
    cases hget' : db (keccak (enc keccak c)) with
    | none =>
      simp only [resolveNode, hget']
      refine .missing (r := q) ?_ hs hget'
      rw [hk]
      exact prefix_append q rest
    | some buf =>
      have hbuf := hdb _ _ _ hs hget'
      subst hbuf
      simp only [resolveNode, hget', decodeNode_enc hN hshape]
      refine hfollow _ (ih _ hres.rep hshape hrest (loaded_firstNode keccak _ c)) ?_ _
        (fun e he => by rw [he]) fun child v he => by simp only [he, hlink]
      intro m' h
      refine ⟨h.rep, fun _ => h.cached ?_, h.clear, fun _ _ => trivial⟩
      cases c with
      | nil => cases hnode
      | value v => cases hnode
      | short k c => exact Option.some_ne_none _
      | full ts => exact Option.some_ne_none _
  | @short _ q' m' c' f hc hf hset =>
    obtain ⟨hrest, hshape⟩ := hslot.shape rfl
    exact hfollow _ (ih _ (.short hc hf hset) hshape hrest fun h heq => by cases heq) (fun _ h => h)
      _ (fun e he => by simp only [he]) fun child v he => by simp only [he, hlink]
  | @full _ ns ts f hns hf hset =>
    obtain ⟨hrest, hshape⟩ := hslot.shape rfl
    exact hfollow _ (ih _ (.full hns hf hset) hshape hrest fun h heq => by cases heq) (fun _ h => h)
      _ (fun e he => by simp only [he]) fun child v he => by simp only [he, hlink]

theorem pathLoop_spec (hdb : Genuine keccak T db) (hN : N ≤ maxKey) :
    ∀ (fuel : Nat) {p : Path} {n : Node} {t : TrieTree} {k : Path},
      Rep keccak (StoreOf keccak T) p n t → TrieShape N t → Terminated term k → Loaded n →
      PathOut keccak T db allow fuel p n t k (pathLoop db allow fuel n k)
  | 0, _, _, _, _, _, _, _, _ => .fuel (Nat.zero_le _)
  | fuel + 1, p, n, t, k, hrep, hshape, hk, hload => by
    cases hrep with
    | nil => cases hshape
    | value => cases hshape
    | hash => exact absurd rfl (hload _)
    | @short _ q m c f hc hf hset =>
      by_cases hpre : q <+: k
      · obtain ⟨rest, rfl⟩ := hpre
        have hget : Proof.get (.short q m f) (q ++ rest) false = some (rest, m) := by
          rw [Proof.get, if_pos (prefix_append q rest), drop_left]
          rfl
        exact pathOut_step hdb hN (fun m' => .short q m' f) hget (fun _ => rfl) rfl hshape.word.2
          (lookup_short_append q c rest) hc (slot_short hshape hk)
          (fun m' h => h.short hf hset) rfl
          fun m₁ h₁ h₂ h₃ h₄ => pathLoop_spec hdb hN fuel h₁ h₂ h₃ h₄
      · rw [pathLoop, Proof.get, if_neg hpre]
        refine pathOut_nil ⟨.short hc hf hset, id, ?_, fun _ => id⟩ (lookup_short_eq_none c hpre)
        rw [hashAbove_short]
        rintro ⟨r, rfl, -⟩
        exact hpre (prefix_append q r)
    | @full _ ns ts f hns hf hset =>
      cases k with
      | nil => exact absurd rfl hk.ne_nil
      | cons a rest =>
        exact pathOut_step (q := [a]) hdb hN (fun m' => .full (Function.update ns a m') f)
          rfl (fun _ => rfl) rfl (cons_ne_nil a []) rfl (hns a) (slot_full hshape hk)
          (fun m' h => h.full hns hf hset) (by rw [update_eq_self])
          fun m₁ h₁ h₂ h₃ h₄ => pathLoop_spec hdb hN fuel h₁ h₂ h₃ h₄

end Path

/-! ## `unset` -/

section Unset

variable {left : Bool}

theorem unset_short_of_not_isPrefix (h : ¬ k <+: key) (val : Node) (f : NodeFlag) (full : Bool) :
    unset left (.short k val f) key full =
      if Keeps left k key then some (.short k val f) else if full then some .nil else none := by
  have hne : k ≠ key := by
    rintro rfl
    exact h prefix_rfl
  have hunset : unset left (.short k val f) key full =
      if left then if k < key then if full then some .nil else none else some (.short k val f)
      else if key < k then if full then some .nil else none
      else some (.short k val f) := by
    by_cases hval : ∃ v, val = .value v
    · obtain ⟨v, rfl⟩ := hval
      rw [unset, if_pos h]
    · rw [unset, if_pos h]
      exact fun v hv => hval ⟨v, hv⟩
  rw [hunset]
  cases left with
  | false =>
    rcases lt_or_gt_of_ne hne with hlt | hlt
    · simp only [Keeps, Bool.false_eq_true, if_false, if_pos hlt, if_neg (lt_asymm hlt)]
    · simp only [Keeps, Bool.false_eq_true, if_false, if_pos hlt, if_neg (lt_asymm hlt)]
  | true =>
    rcases lt_or_gt_of_ne hne with hlt | hlt
    · simp only [Keeps, if_true, if_pos hlt, if_neg (lt_asymm hlt)]
    · simp only [Keeps, if_true, if_pos hlt, if_neg (lt_asymm hlt)]

theorem unset_leaf (k rest : Path) (v : Bytes) (f : NodeFlag) (full : Bool) :
    unset left (.short k (.value v) f) (k ++ rest) full = if full then some .nil else none := by
  rw [unset, if_neg (not_not.mpr (prefix_append k rest))]

theorem unset_ext (hval : ∀ v, val ≠ .value v) (k rest : Path) (f : NodeFlag) (full : Bool) :
    unset left (.short k val f) (k ++ rest) full = match unset left val rest false with
      | none => none
      | some child => some (.short k child newFlag) := by
  cases hchild : unset left val rest false with
  | none =>
    rw [unset, if_neg (not_not.mpr (prefix_append k rest)), drop_left, hchild]
    exact hval
  | some child =>
    rw [unset, if_neg (not_not.mpr (prefix_append k rest)), drop_left, hchild]
    exact hval

/-- In a branch without a value the loop keeps exactly one side. -/
theorem clearSide_eq (hterm : ns term = .nil) {i : Nibble} (hi : i ≠ a) :
    clearSide left a ns i = if Keeps left i a then ns i else .nil := by
  have hle : i ≤ term := Fin.le_last i
  unfold clearSide Keeps
  cases left with
  | false =>
    rcases lt_or_gt_of_ne hi with hlt | hlt
    · simp only [Bool.false_eq_true, if_false, if_pos hlt, lt_asymm hlt, false_and]
    by_cases ht : i = term
    · subst ht
      simp only [Bool.false_eq_true, if_false, lt_irrefl, and_false, hterm, ite_self]
    · have hlt' : i < term := lt_of_le_of_ne hle ht
      simp only [Bool.false_eq_true, if_false, hlt, hlt', and_self, if_true,
        if_neg (lt_asymm hlt)]
  | true =>
    rcases lt_or_gt_of_ne hi with hlt | hlt
    · simp only [if_true, if_pos hlt, if_neg (lt_asymm hlt)]
    · simp only [if_true, if_neg (lt_asymm hlt), if_pos hlt]

theorem Rep.term_slot (h : ∀ i, Rep keccak S (p ++ [i]) (ns i) (ts i))
    (hbare : Bare term (.full ts)) : ns term = .nil := by
  have hslot := h term
  rw [hbare.1] at hslot
  exact hslot.nil_node

theorem Rep.value_tree {v : Bytes} (h : Rep keccak S p (.value v) t) : t = .value v := by
  cases h
  rfl

theorem Rep.ne_value (h : Rep keccak S p n (.full ts)) (v : Bytes) : n ≠ .value v := by
  rintro rfl
  cases h

theorem slot_ne_value (hshape : TrieShape N (.full ts)) (hbare : Bare term (.full ts))
    (a : Nibble) (v : Bytes) : ts a ≠ .value v := by
  intro heq
  by_cases ha : a = term
  · rw [ha, hbare.1] at heq
    cases heq
  have hslot := hshape.slot ha
  rw [heq] at hslot
  rcases hslot with h | h
  · cases h
  · cases h

/-- A branch one slot of which is new. -/
theorem Rep.full_update (ha : Rep keccak S (p ++ [a]) m (ts a))
    (hns : ∀ i, i ≠ a → Rep keccak S (p ++ [i]) (ns i) (ts i)) :
    Rep keccak S p (.full (Function.update ns a m) newFlag) (.full ts) := by
  refine Rep.full_new fun i => ?_
  by_cases hi : i = a
  · subst hi
    rwa [update_self]
  · rw [update_of_ne hi]
    exact hns i hi

theorem hashAbove_update (h : HashAbove (.full (Function.update ns a m) f) r) :
    (∃ r', r = a :: r' ∧ HashAbove m r') ∨ ∃ i r', i ≠ a ∧ r = i :: r' ∧ HashAbove (ns i) r' := by
  obtain ⟨i, r', rfl, hr⟩ := (hashAbove_full _ f r).mp h
  by_cases hi : i = a
  · subst hi
    rw [update_self] at hr
    exact .inl ⟨r', rfl, hr⟩
  · rw [update_of_ne hi] at hr
    exact .inr ⟨i, r', hi, rfl, hr⟩

/-- What `unset` comes to: a node that stands for the trimmed tree, in which every hash node is on
the side that is kept, or a panic, at a hash node on the way or at a node that no branch holds. -/
inductive Trimmed (keccak : Bytes → Hash) (S : Path → TrieTree → Prop) (left : Bool) (p : Path)
    (n : Node) (t : TrieTree) (k : Path) (full : Bool) : Option Node → Prop where
  | done {n' : Node} (rep : Rep keccak S p n' (trim left t k))
      (above : ∀ r, HashAbove n' r → HashAbove n r ∧ Keeps left r k) :
      Trimmed keccak S left p n t k full (some n')
  | hash (h : HashAbove n k) : Trimmed keccak S left p n t k full none
  | stuck (hfull : t.isFull = false) (h : full = true → ∃ v, t = .value v) :
      Trimmed keccak S left p n t k full none

theorem trimmed_remove {full : Bool} (ht : trim left t k = .nil) (hfull : t.isFull = false) :
    Trimmed keccak S left p n t k full (if full then some .nil else none) := by
  cases full with
  | false => exact .stuck hfull fun h => by cases h
  | true =>
    refine .done ?_ fun r hr => absurd hr (not_hashAbove_nil r)
    rw [ht]
    exact .nil p

theorem unset_trimmed (left : Bool) (h : Rep keccak S p n t) :
    ∀ {k : Path} (full : Bool), Slot N t k → Bare term t →
      Trimmed keccak S left p n t k full (unset left n k full) := by
  induction h with
  | nil p =>
    intro k full _ _
    exact .done (.nil p) fun r hr => absurd hr (not_hashAbove_nil r)
  | value _ v => intro k full _ _; exact .stuck rfl fun _ => ⟨v, rfl⟩
  | hash => intro k full _ _; exact .hash trivial
  | @short p q m c f hc hf hset ih =>
    intro k full hslot hbare
    obtain ⟨hk, hshape⟩ := hslot.shape rfl
    by_cases hpre : q <+: k
    · obtain ⟨rest, rfl⟩ := hpre
      cases hshape with
      | @leaf _ _ v hq _ _ =>
        rw [hc.value_node, unset_leaf, hq.eq_of_append hk, append_nil]
        exact trimmed_remove (trim_leaf_self q v) rfl
      | ext hne hq hlen hts =>
        have hchild := ih false (slot_short (.ext hne hq hlen hts) hk) hbare
        rw [unset_ext hc.ne_value]
        generalize unset left m rest false = child at hchild
        cases hchild with
        | done hrep habove =>
          refine .done ?_ fun r hr => ?_
          · rw [trim_short_append rfl]
            exact hrep.short_new
          · obtain ⟨r', rfl, hr'⟩ := (hashAbove_short q _ newFlag r).mp hr
            obtain ⟨hm, hkeep⟩ := habove r' hr'
            exact ⟨(hashAbove_short q m f _).mpr ⟨r', rfl, hm⟩,
              (Radix.keeps_append q r' rest).mpr hkeep⟩
        | hash h => exact .hash ((hashAbove_short q m f _).mpr ⟨rest, rfl, h⟩)
        | stuck h => cases h
    · rw [unset_short_of_not_isPrefix hpre]
      have htrim : trim left (.short q c) k = _ := trim_short_of_not_isPrefix hpre c
      by_cases hkeep : Keeps left q k
      · rw [if_pos hkeep] at htrim ⊢
        refine .done ?_ fun r hr => ⟨hr, ?_⟩
        · rw [htrim]
          exact .short hc hf hset
        · obtain ⟨r', rfl, -⟩ := (hashAbove_short q m f r).mp hr
          exact (keeps_iff_of_not_isPrefix left hk hshape.word.1 hpre r').mpr hkeep
      · rw [if_neg hkeep] at htrim ⊢
        exact trimmed_remove htrim rfl
  | @full p ns ts f hns hf hset ih =>
    intro k full hslot hbare
    obtain ⟨hk, hshape⟩ := hslot.shape rfl
    cases k with
    | nil => exact absurd rfl hk.ne_nil
    | cons a k =>
      have hchild := ih a true (slot_full hshape hk) (hbare.2 a)
      rw [unset]
      generalize unset left (ns a) k true = child at hchild
      cases hchild with
      | done hrep habove =>
        have hterm := Rep.term_slot hns hbare
        refine .done ?_ fun r hr => ?_
        · rw [trim_full_cons]
          refine Rep.full_update (by rwa [if_pos rfl]) fun i hi => ?_
          rw [if_neg hi, clearSide_eq hterm hi]
          split
          · exact hns i
          · exact .nil _
        · rcases hashAbove_update hr with ⟨r', rfl, hr'⟩ | ⟨b, r', hb, rfl, hr'⟩
          · obtain ⟨hm, hkeep⟩ := habove r' hr'
            exact ⟨hm, (Radix.keeps_cons_self a r' k).mpr hkeep⟩
          · rw [clearSide_eq hterm hb] at hr'
            split at hr'
            · rename_i hkeep
              exact ⟨hr', (Radix.keeps_cons hb r' k).mpr hkeep⟩
            · exact absurd hr' (not_hashAbove_nil r')
      | hash h => exact .hash h
      | stuck _ h =>
        obtain ⟨v, hv⟩ := h rfl
        exact absurd hv (slot_ne_value hshape hbare a v)

end Unset

/-! ## `unsetInternal` -/

section UnsetInternal

theorem bytesCompare_eq_lt {a : Path} : bytesCompare a b = .lt ↔ a < b := by
  unfold bytesCompare
  split
  · rename_i h
    exact iff_of_true rfl h
  · rename_i h
    refine iff_of_false ?_ h
    split <;> exact fun heq => by cases heq

theorem bytesCompare_eq_gt {a : Path} : bytesCompare a b = .gt ↔ b < a := by
  unfold bytesCompare
  split
  · rename_i h
    exact iff_of_false (fun heq => by cases heq) (lt_asymm h)
  split
  · rename_i h
    exact iff_of_true rfl h
  · rename_i h
    exact iff_of_false (fun heq => by cases heq) h

theorem bytesCompare_eq_eq {a : Path} : bytesCompare a b = .eq ↔ a = b := by
  constructor
  · intro heq
    have hlt : ¬ a < b := fun h => by rw [bytesCompare_eq_lt.mpr h] at heq; cases heq
    have hgt : ¬ b < a := fun h => by rw [bytesCompare_eq_gt.mpr h] at heq; cases heq
    exact le_antisymm (not_lt.mp hgt) (not_lt.mp hlt)
  · rintro rfl
    unfold bytesCompare
    rw [if_neg (lt_irrefl a), if_neg (lt_irrefl a)]

/-- How an edge key compares with the word of a short node. -/
theorem bytesCompare_take {x : Path} (hx : Terminated term x) (hq : Word term q) :
    (bytesCompare (x.take q.length) q = .eq ↔ q <+: x) ∧
      (¬ q <+: x → (bytesCompare (x.take q.length) q = .lt ↔ x < q) ∧
        (bytesCompare (x.take q.length) q = .gt ↔ q < x)) := by
  constructor
  · rw [bytesCompare_eq_eq, prefix_iff_eq_take, eq_comm]
  · intro hpre
    rw [bytesCompare_eq_lt, bytesCompare_eq_gt]
    rcases hx.cases hq with ⟨k', rfl⟩ | ⟨p, b, x', a, q', hba, rfl, rfl⟩
    · exact absurd (prefix_append q k') hpre
    have htake : (p ++ b :: x').take (p ++ a :: q').length = p ++ b :: x'.take q'.length := by
      rw [length_append, length_cons, take_append,
        take_of_length_le (by omega), Nat.add_sub_cancel_left, take_succ_cons]
    rw [htake]
    constructor
    · exact (@Radix.keeps_fork _ _ false _ _ hba p _ q').trans
        (@Radix.keeps_fork _ _ false _ _ hba p x' q').symm
    · exact (@Radix.keeps_fork _ _ true _ _ hba p _ q').trans
        (@Radix.keeps_fork _ _ true _ _ hba p x' q').symm

/-- A short node that both keys pass. -/
theorem unsetInternal_below (m : Node) (f : NodeFlag) (q l r : Path) (parent : Parent) :
    unsetInternal (.short q m f) (q ++ l) (q ++ r) parent = match unsetInternal m l r .short with
      | .error e => .error e
      | .ok (val, empty) => .ok (.short q val newFlag, empty) := by
  have htake : ∀ s : Path, bytesCompare ((q ++ s).take q.length) q = .eq := by
    intro s
    rw [take_left, bytesCompare_eq_eq]
  cases hout : unsetInternal m l r .short with
  | error e =>
    rw [unsetInternal, if_pos ⟨htake l, htake r⟩, drop_left, drop_left, hout]
  | ok out =>
    rw [unsetInternal, if_pos ⟨htake l, htake r⟩, drop_left, drop_left, hout]

/-- A short node that is not passed by both keys. -/
theorem unsetInternal_lies (hq : Word term q) (hl : Terminated term l) (hr : Terminated term r)
    (hlr : l < r) (hboth : ¬ (q <+: l ∧ q <+: r)) (m : Node) (f : NodeFlag) (parent : Parent) :
    (q <+: l ∧ ¬ q <+: r ∧ q < r ∧
      unsetInternal (.short q m f) l r parent = unsetEdge false q m l parent) ∨
    (¬ q <+: l ∧ q <+: r ∧ l < q ∧
      unsetInternal (.short q m f) l r parent = unsetEdge true q m r parent) ∨
    (¬ q <+: l ∧ ¬ q <+: r ∧ l < q ∧ q < r ∧
      unsetInternal (.short q m f) l r parent = removeFork (.short q m newFlag) parent) ∨
    (¬ q <+: l ∧ ¬ q <+: r ∧ unsetInternal (.short q m f) l r parent = .error .emptyRange) := by
  obtain ⟨hleq, hlne⟩ := bytesCompare_take hl hq
  obtain ⟨hreq, hrne⟩ := bytesCompare_take hr hq
  cases lies_cases hq hl hr hlr with
  | below hql hqr => exact absurd ⟨hql, hqr⟩ hboth
  | right hql hqr hlt =>
    left
    have hle := hleq.mpr hql
    have hgt := (hrne hqr).2.mpr hlt
    refine ⟨hql, hqr, hlt, ?_⟩
    rw [unsetInternal]
    simp [hle, hgt]
  | left hql hqr hlt =>
    right; left
    have hre := hreq.mpr hqr
    have hgt := (hlne hql).1.mpr hlt
    refine ⟨hql, hqr, hlt, ?_⟩
    rw [unsetInternal]
    simp [hre, hgt]
  | inside hql hqr hlt hlt' =>
    right; right; left
    have h₁ := (hlne hql).1.mpr hlt
    have h₂ := (hrne hqr).2.mpr hlt'
    refine ⟨hql, hqr, hlt, hlt', ?_⟩
    rw [unsetInternal]
    simp [h₁, h₂]
  | out hql hqr hout =>
    right; right; right
    refine ⟨hql, hqr, ?_⟩
    rw [unsetInternal]
    rcases hout with h | h
    · have h₁ := (hlne hql).2.mpr h
      have h₂ := (hrne hqr).2.mpr (h.trans hlr)
      simp [h₁, h₂]
    · have h₁ := (hlne hql).1.mpr (hlr.trans h)
      have h₂ := (hrne hqr).1.mpr h
      simp [h₁, h₂]

/-- What `unsetInternal` leaves, in the place of the node. -/
def leftOver (out : Node × Bool) : Node := if out.2 then .nil else out.1

/-- What is left stands for the tree without the range, and every hash node in it is outside
the range. -/
structure Unset (keccak : Bytes → Hash) (S : Path → TrieTree → Prop) (p : Path) (n : Node)
    (t : TrieTree) (l r : Path) (n' : Node) : Prop where
  rep : Rep keccak S p n' (outside t l r)
  above : ∀ s, HashAbove n' s → HashAbove n s ∧ Out l r s

/-- What `unsetInternal` comes to. It fails at a hash node on one of the ways, without an entry at
the right edge, or where the node has to go and a short node is above it. -/
inductive RangeOut (keccak : Bytes → Hash) (S : Path → TrieTree → Prop) (p : Path) (n : Node)
    (t : TrieTree) (l r : Path) (parent : Parent) : Except ProofErr (Node × Bool) → Prop where
  | done {out : Node × Bool} (unset : Unset keccak S p n t l r (leftOver out))
      (hempty : out.2 = true → parent = .none) : RangeOut keccak S p n t l r parent (.ok out)
  | hash {e : ProofErr} (h : HashAbove n l ∨ HashAbove n r) :
      RangeOut keccak S p n t l r parent (.error e)
  | absent {e : ProofErr} (h : t.lookup r = none) : RangeOut keccak S p n t l r parent (.error e)
  | stuck {e : ProofErr} (hparent : parent = .short) (hfull : t.isFull = false) :
      RangeOut keccak S p n t l r parent (.error e)

theorem RangeOut.exists {out : Except ProofErr (Node × Bool)}
    (h : RangeOut keccak S p n t l r .none out) (hl : ¬ HashAbove n l) (hr : ¬ HashAbove n r)
    (hsome : t.lookup r ≠ none) : ∃ out', out = .ok out' ∧ Unset keccak S p n t l r (leftOver out') := by
  cases h with
  | done hunset => exact ⟨_, rfl, hunset⟩
  | hash h => exact absurd h (not_or.mpr ⟨hl, hr⟩)
  | absent h => exact absurd h hsome
  | stuck h => cases h

theorem removeFork_out (n : Node) (parent : Parent) :
    match removeFork n parent with
    | .ok out => leftOver out = .nil ∧ (out.2 = true → parent = .none)
    | .error _ => parent = .short := by
  cases parent with
  | none => exact ⟨rfl, fun _ => rfl⟩
  | full => exact ⟨rfl, fun h => by cases h⟩
  | short => rfl

theorem unsetEdge_value {left : Bool} {v : Bytes} :
    unsetEdge left k (.value v) key parent = removeFork (.short k (.value v) newFlag) parent :=
  rfl

theorem unsetEdge_node {left : Bool} (hval : ∀ v, val ≠ .value v) :
    unsetEdge left k val (k ++ rest) parent = match unset left val rest false with
      | none => .error .panic
      | some child => .ok (.short k child newFlag, false) := by
  cases hchild : unset left val rest false with
  | none =>
    rw [unsetEdge, drop_left, hchild]
    exact hval
  | some child =>
    rw [unsetEdge, drop_left, hchild]
    exact hval

/-- The short node at the fork that one key passes. -/
theorem unsetEdge_out (left : Bool) (hc : Rep keccak S (p ++ q) m c)
    (hshape : TrieShape N (.short q c)) (hk : Terminated term (q ++ rest)) (hbare : Bare term c) :
    match unsetEdge left q m (q ++ rest) parent with
    | .ok out => Rep keccak S p (leftOver out) (trim left (.short q c) (q ++ rest)) ∧
        (∀ s, HashAbove (leftOver out) s →
          (∃ s', s = q ++ s' ∧ HashAbove m s') ∧ Keeps left s (q ++ rest)) ∧
        (out.2 = true → parent = .none)
    | .error _ => HashAbove m rest ∨ parent = .short := by
  have hslot := slot_short hshape hk
  cases hshape with
  | @leaf _ _ v hq _ _ =>
    rw [hc.value_node, unsetEdge_value]
    have hout := removeFork_out (.short q (.value v) newFlag) parent
    generalize removeFork (.short q (.value v) newFlag) parent = out at hout
    cases out with
    | error e => exact .inr hout
    | ok out =>
      obtain ⟨hnil, hempty⟩ := hout
      simp only [hnil, hq.eq_of_append hk, append_nil, trim_leaf_self]
      exact ⟨.nil p, fun s hs => absurd hs (not_hashAbove_nil s), hempty⟩
  | ext =>
    have hchild := unset_trimmed left hc false hslot hbare
    rw [unsetEdge_node hc.ne_value]
    generalize unset left m rest false = child at hchild
    cases hchild with
    | hash h => exact .inl h
    | stuck h => cases h
    | done hrep habove =>
      refine ⟨?_, fun s hs => ?_, fun h => by cases h⟩
      · rw [trim_short_append rfl]
        exact hrep.short_new
      · obtain ⟨s', rfl, hs'⟩ := (hashAbove_short q _ newFlag s).mp hs
        obtain ⟨hm, hkeep⟩ := habove s' hs'
        exact ⟨⟨s', rfl, hm⟩, (Radix.keeps_append q s' rest).mpr hkeep⟩

theorem out_of_ne {i : Nibble} (hi : i ≠ a) (l r s : Path) : Out (a :: l) (a :: r) (i :: s) := by
  rcases lt_or_gt_of_ne hi with hlt | hlt
  · exact .inl (cons_lt_cons_iff.mpr (.inl hlt))
  · exact .inr (cons_lt_cons_iff.mpr (.inl hlt))

/-- The branch at the fork. -/
theorem unsetFork_out (hns : ∀ i, Rep keccak S (p ++ [i]) (ns i) (ts i))
    (hshape : TrieShape N (.full ts)) (hbare : Bare term (.full ts)) {b : Nibble}
    (hl : Terminated term (a :: l)) (hr : Terminated term (b :: r)) (hlr : a :: l < b :: r)
    (hsame : a = b → ts a = .nil) :
    RangeOut keccak S p (.full ns f) (.full ts) (a :: l) (b :: r) parent
      (unsetFork ns a l b r) := by
  unfold unsetFork
  have ha : (if a < a ∧ a < b then Node.nil else ns a) = ns a := if_neg fun h => lt_irrefl a h.1
  have hchild := unset_trimmed false (hns a) true (slot_full hshape hl) (hbare.2 a)
  simp only [ha]
  by_cases hab : a = b
  · subst hab
    have hnil := hsame rfl
    have hna : ns a = .nil := by
      have hslot := hns a
      rw [hnil] at hslot
      exact hslot.nil_node
    simp only [hna, unset, update_self]
    refine .done ⟨?_, fun s hs => ?_⟩ fun h => by cases h
    · rw [outside_full_same]
      refine Rep.full_update ?_ fun i hi => ?_
      · rw [if_pos rfl, hnil]
        exact .nil _
      · rw [update_of_ne hi, if_neg hi, if_neg fun h => lt_asymm h.1 h.2]
        exact hns i
    · rcases hashAbove_update hs with ⟨s', rfl, hs'⟩ | ⟨i, s', hi, rfl, hs'⟩
      · exact absurd hs' (not_hashAbove_nil s')
      · rw [update_of_ne hi, if_neg fun h => lt_asymm h.1 h.2] at hs'
        exact ⟨hs', out_of_ne hi l r s'⟩
  have hlt : a < b := (cons_lt_cons_iff.mp hlr).resolve_right fun h => hab h.1
  have hb : (if a < b ∧ b < b then Node.nil else ns b) = ns b := if_neg fun h => lt_irrefl b h.2
  have hchild' := unset_trimmed true (hns b) true (slot_full hshape hr) (hbare.2 b)
  generalize unset false (ns a) l true = child at hchild
  cases hchild with
  | hash h => exact .hash (.inl h)
  | stuck _ h =>
    obtain ⟨v, hv⟩ := h rfl
    exact absurd hv (slot_ne_value hshape hbare a v)
  | done hrep habove =>
  simp only [update_of_ne (Ne.symm hab), hb]
  generalize unset true (ns b) r true = child' at hchild'
  cases hchild' with
  | hash h => exact .hash (.inr h)
  | stuck _ h =>
    obtain ⟨v, hv⟩ := h rfl
    exact absurd hv (slot_ne_value hshape hbare b v)
  | done hrep' habove' =>
  refine .done ⟨?_, fun s hs => ?_⟩ fun h => by cases h
  · rw [outside_full_fork ts hab]
    refine Rep.full_update ?_ fun i hib => ?_
    · rwa [if_neg (Ne.symm hab), if_pos rfl]
    · by_cases hia : i = a
      · subst hia
        rwa [update_self, if_pos rfl]
      · rw [update_of_ne hia, if_neg hia, if_neg hib]
        split
        · exact .nil _
        · exact hns i
  · rcases hashAbove_update hs with ⟨s', rfl, hs'⟩ | ⟨i, s', hib, rfl, hs'⟩
    · obtain ⟨hm, hkeep⟩ := habove' s' hs'
      exact ⟨hm, .inr ((Radix.keeps_cons_self b s' r).mpr hkeep)⟩
    · by_cases hia : i = a
      · subst hia
        rw [update_self] at hs'
        obtain ⟨hm, hkeep⟩ := habove s' hs'
        exact ⟨hm, .inl ((Radix.keeps_cons_self i s' l).mpr hkeep)⟩
      · rw [update_of_ne hia] at hs'
        split at hs'
        · exact absurd hs' (not_hashAbove_nil s')
        next hin =>
        refine ⟨hs', ?_⟩
        rcases lt_or_gt_of_ne hia with h | h
        · exact .inl (cons_lt_cons_iff.mpr (.inl h))
        · have hbi := lt_of_le_of_ne (not_lt.mp fun h' => hin ⟨h, h'⟩) (Ne.symm hib)
          exact .inr (cons_lt_cons_iff.mpr (.inl hbi))

theorem unset_nil (p l r : Path) (ht : outside t l r = .nil) : Unset keccak S p n t l r .nil where
  rep := by
    rw [ht]
    exact .nil p
  above s hs := absurd hs (not_hashAbove_nil s)

theorem unsetInternal_out (h : Rep keccak S p n t) :
    ∀ {l r : Path} (parent : Parent), TrieShape N t → Bare term t →
      Terminated term l → Terminated term r → l < r →
      RangeOut keccak S p n t l r parent (unsetInternal n l r parent) := by
  induction h generalizing N with
  | nil => intro l r parent hshape; cases hshape
  | value => intro l r parent hshape; cases hshape
  | hash => intro l r parent _ _ _ _ _; exact .hash (.inl trivial)
  | @short p q m c f hc hf hset ih =>
    intro l r parent hshape hbare hl hr hlr
    by_cases hboth : q <+: l ∧ q <+: r
    · obtain ⟨⟨l', rfl⟩, ⟨r', rfl⟩⟩ := hboth
      rw [unsetInternal_below]
      cases hshape with
      | leaf hq =>
        rw [hq.eq_of_append hl, hq.eq_of_append hr] at hlr
        exact absurd hlr (lt_irrefl _)
      | ext hne hq hlen hts =>
        have hchild := ih .short hts hbare (hl.rest hq) (hr.rest hq)
          ((Radix.append_lt_append_iff q).mp hlr)
        generalize unsetInternal m l' r' .short = out at hchild
        cases hchild with
        | hash h =>
          exact .hash (h.imp (fun h => (hashAbove_short q m f _).mpr ⟨l', rfl, h⟩)
            fun h => (hashAbove_short q m f _).mpr ⟨r', rfl, h⟩)
        | absent h => exact .absent ((lookup_short_append q _ r').trans h)
        | stuck _ h => cases h
        | @done out hunset hempty =>
          obtain ⟨val, empty⟩ := out
          obtain rfl : empty = false := Bool.eq_false_iff.mpr fun h => by cases hempty h
          refine .done ⟨?_, fun s hs => ?_⟩ fun h => by cases h
          · rw [outside_short_append]
            exact hunset.rep.short_new
          · obtain ⟨s', rfl, hs'⟩ := (hashAbove_short q val newFlag s).mp hs
            obtain ⟨hm, hout⟩ := hunset.above s' hs'
            exact ⟨(hashAbove_short q m f _).mpr ⟨s', rfl, hm⟩, (out_append q l' r' s').mpr hout⟩
    · have hedge : ∀ {left : Bool} {k : Path}, Terminated term k → q <+: k →
          outside (.short q c) l r = trim left (.short q c) k →
          (∀ s, Keeps left (q ++ s) k → Out l r (q ++ s)) →
          (∀ {e}, HashAbove (.short q m f) k ∨ parent = .short →
            RangeOut keccak S p (.short q m f) (.short q c) l r parent (.error e)) →
          RangeOut keccak S p (.short q m f) (.short q c) l r parent
            (unsetEdge left q m k parent) := by
        intro left k hk hqk htree hkeep hfail
        obtain ⟨rest, rfl⟩ := hqk
        have hout := @unsetEdge_out parent p q rest m c keccak S N left hc hshape hk hbare
        generalize unsetEdge left q m (q ++ rest) parent = out at hout
        cases out with
        | error e => exact hfail (hout.imp_left fun h => (hashAbove_short q m f _).mpr ⟨rest, rfl, h⟩)
        | ok out =>
          obtain ⟨hrep, habove, hempty⟩ := hout
          refine .done ⟨?_, fun s hs => ?_⟩ hempty
          · rw [htree]
            exact hrep
          · obtain ⟨⟨s', rfl, hs'⟩, hk'⟩ := habove s hs
            exact ⟨(hashAbove_short q m f _).mpr ⟨s', rfl, hs'⟩, hkeep s' hk'⟩
      rcases unsetInternal_lies hshape.word.1 hl hr hlr hboth m f parent with
        ⟨hql, hqr, hlt, hout⟩ | ⟨hql, hqr, hlt, hout⟩ | ⟨hql, hqr, hlt, hlt', hout⟩ |
        ⟨-, hqr, hout⟩
      · rw [hout]
        exact hedge hl hql (outside_short_right c hql hqr) (fun s hs => .inl hs)
          fun _ => .absent (lookup_short_eq_none c hqr)
      · rw [hout]
        refine hedge hr hqr (outside_short_left c hql hqr) (fun s hs => .inr hs) fun h => ?_
        rcases h with h | h
        · exact .hash (.inr h)
        · exact .stuck h rfl
      · rw [hout]
        have hfork := removeFork_out (.short q m newFlag) parent
        generalize removeFork (.short q m newFlag) parent = out at hfork
        cases out with
        | error e => exact .absent (lookup_short_eq_none c hqr)
        | ok out =>
          obtain ⟨hnil, hempty⟩ := hfork
          refine .done ?_ hempty
          rw [hnil]
          exact unset_nil p l r (outside_short_inside c hql hqr hlt hlt')
      · rw [hout]
        exact .absent (lookup_short_eq_none c hqr)
  | @full p ns ts f hns hf hset ih =>
    intro l r parent hshape hbare hl hr hlr
    cases l with
    | nil => exact absurd rfl hl.ne_nil
    | cons a l =>
    cases r with
    | nil => exact absurd rfl hr.ne_nil
    | cons b r =>
    rw [unsetInternal]
    by_cases hnil : (ns a).isNil = true ∨ (ns b).isNil = true
    · rw [if_pos hnil]
      refine unsetFork_out hns hshape hbare hl hr hlr fun hab => ?_
      subst hab
      rw [or_self, (hns a).isNil, isNil_iff] at hnil
      exact hnil
    rw [if_neg hnil, sameChild]
    split
    · rename_i hsame
      split at hsame
      · rename_i ha _
        refine .hash (.inl ?_)
        rw [HashAbove, ha]
        trivial
      · rename_i v _ ha _
        exact absurd (ha ▸ hns a).value_tree (slot_ne_value hshape hbare a v)
      · cases hsame
    · rename_i hsame
      have hab : a ≠ b := by
        split at hsame
        · cases hsame
        · cases hsame
        · exact of_decide_eq_false (Option.some.inj hsame)
      exact unsetFork_out hns hshape hbare hl hr hlr fun h => absurd h hab
    · rename_i hsame
      obtain rfl : a = b := by
        split at hsame
        · cases hsame
        · cases hsame
        · exact of_decide_eq_true (Option.some.inj hsame)
      rw [or_self, (hns a).isNil, isNil_iff] at hnil
      obtain ⟨ha, hl', hr', hlr'⟩ := Terminated.rests hl hr hlr
      have hchild := ih a .full ((hshape.slot ha).resolve_left hnil) (hbare.2 a) hl' hr' hlr'
      generalize unsetInternal (ns a) l r .full = out at hchild
      cases hchild with
      | hash h => exact .hash h
      | absent h => exact .absent h
      | stuck h => cases h
      | @done out hunset hempty =>
        obtain ⟨val, empty⟩ := out
        obtain rfl : empty = false := Bool.eq_false_iff.mpr fun h => by cases hempty h
        refine .done ⟨?_, fun s hs => ?_⟩ fun h => by cases h
        · rw [outside_full_same]
          refine Rep.full_update (by rw [if_pos rfl]; exact hunset.rep) fun i hi => ?_
          rw [if_neg hi]
          exact hns i
        · rcases hashAbove_update hs with ⟨s', rfl, hs'⟩ | ⟨i, s', hi, rfl, hs'⟩
          · obtain ⟨hm, hout⟩ := hunset.above s' hs'
            exact ⟨hm, (out_cons a l r s').mpr hout⟩
          · exact ⟨hs', out_of_ne hi l r s'⟩

end UnsetInternal

/-! ## `hasRightElement` -/

/-- Whether an entry is to the right of a key; a panic is at a hash node on the way. -/
theorem hasRightElement_out (h : Rep keccak S p n t) :
    ∀ {k : Path}, Slot N t k → Bare term t → Minimal t → match hasRightElement n k with
      | some more => more = true ↔ ∃ k' v, t.lookup k' = some v ∧ k < k'
      | none => HashAbove n k := by
  induction h generalizing N with
  | nil p =>
    intro k _ _ _
    refine iff_of_false Bool.false_ne_true ?_
    rintro ⟨k', v, hk', -⟩
    cases hk'
  | value p v =>
    intro k _ _ _
    refine iff_of_false Bool.false_ne_true ?_
    rintro ⟨k', v', hk', hlt⟩
    cases k' with
    | nil => exact not_lt_nil _ hlt
    | cons a k' => cases hk'
  | hash => intro k _ _ _; exact trivial
  | @short p q m c f hc hf hset ih =>
    intro k hslot hbare hmin
    obtain ⟨hk, hshape⟩ := hslot.shape rfl
    rw [hasRightElement]
    by_cases hpre : q <+: k
    · obtain ⟨rest, rfl⟩ := hpre
      rw [if_neg (not_not.mpr (prefix_append q rest)), drop_left]
      have hchild := ih (slot_short hshape hk) hbare hmin
      generalize hasRightElement m rest = out at hchild
      cases out with
      | none => exact (hashAbove_short q m f _).mpr ⟨rest, rfl, hchild⟩
      | some more =>
        refine hchild.trans ⟨?_, ?_⟩
        · rintro ⟨k', v, hk', hlt⟩
          refine ⟨q ++ k', v, ?_, (Radix.append_lt_append_iff q).mpr hlt⟩
          rw [lookup_short_append, hk']
        · rintro ⟨k', v, hk', hlt⟩
          obtain ⟨s, rfl⟩ := prefix_of_lookup_short hk'
          rw [lookup_short_append] at hk'
          exact ⟨s, v, hk', (Radix.append_lt_append_iff q).mp hlt⟩
    · rw [if_pos hpre]
      refine decide_eq_true_iff.trans ⟨fun hlt => ?_, ?_⟩
      · obtain ⟨k', v, hk'⟩ := hshape.exists_entry hmin
        obtain ⟨s, rfl⟩ := prefix_of_lookup_short hk'
        exact ⟨_, v, hk', (keeps_iff_of_not_isPrefix true hk hshape.word.1 hpre s).mpr hlt⟩
      · rintro ⟨k', v, hk', hlt⟩
        obtain ⟨s, rfl⟩ := prefix_of_lookup_short hk'
        exact (keeps_iff_of_not_isPrefix true hk hshape.word.1 hpre s).mp hlt
  | @full p ns ts f hns hf hset ih =>
    intro k hslot hbare hmin
    obtain ⟨hk, hshape⟩ := hslot.shape rfl
    cases k with
    | nil => exact absurd rfl hk.ne_nil
    | cons a k =>
      rw [hasRightElement]
      by_cases hany : (childSlots.any fun i => decide (a < i) && !(ns i).isNil) = true
      · rw [if_pos hany]
        rw [any_eq_true] at hany
        obtain ⟨i, -, hi⟩ := hany
        rw [Bool.and_eq_true, decide_eq_true_eq, Bool.not_eq_true', (hns i).isNil] at hi
        have hts : ts i ≠ .nil := by
          intro hnil
          rw [hnil] at hi
          cases hi.2
        obtain ⟨k', v, hk'⟩ := hshape.exists_entry_slot hmin hts
        exact iff_of_true rfl ⟨i :: k', v, hk', cons_lt_cons_iff.mpr (.inl hi.1)⟩
      · rw [if_neg hany]
        have hchild := ih a (slot_full hshape hk) (hbare.2 a) (hmin.2 a)
        generalize hasRightElement (ns a) k = out at hchild
        cases out with
        | none => exact hchild
        | some more =>
          refine hchild.trans ⟨?_, ?_⟩
          · rintro ⟨k', v, hk', hlt⟩
            exact ⟨a :: k', v, hk', (Radix.append_lt_append_iff [a]).mpr hlt⟩
          · rintro ⟨k', v, hk', hlt⟩
            cases k' with
            | nil => cases hk'
            | cons b k' =>
              rcases cons_lt_cons_iff.mp hlt with hab | ⟨rfl, hlt'⟩
              · -- every slot to the right is empty
                have hts : ts b = .nil := by
                  by_cases hb : b = term
                  · subst hb
                    exact hbare.1
                  by_contra hne
                  refine hany (any_eq_true.mpr ⟨b, mem_childSlots.mpr hb, ?_⟩)
                  rw [Bool.and_eq_true, decide_eq_true_eq, Bool.not_eq_true', (hns b).isNil]
                  refine ⟨hab, ?_⟩
                  rw [← Bool.not_eq_true, isNil_iff]
                  exact hne
                rw [lookup_full_cons, hts] at hk'
                cases hk'
              · exact ⟨k', v, hk', hlt'⟩

end Edges

end GoEthereum.Trie

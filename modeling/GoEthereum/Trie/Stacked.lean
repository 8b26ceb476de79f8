import GoEthereum.Trie.KeyOrder
import GoEthereum.Trie.Proof
import GoEthereum.Trie.StackTrie

/-!
# The stack trie is a trie

`StRep n t` says that a node of a stack trie stands for the tree `t`: a hashed node has
the reference to it. `Open n last` says that nothing on the way to the last key has
been hashed, and that nothing is to the right of it, so that a greater key never meets
a hashed node. `Reported` relates what `onTrieNode` has been given to the nodes that
are behind a hashed node (`Done`): exactly these, each once.
-/

namespace GoEthereum.Trie

open Radix (Tree Terminated)
open Radix.Tree List Function

variable {out : List Report} {N : Nat} {a b : Nibble} {ns : Nibble → StNode}
  {ts : Nibble → TrieTree} {p q : Path} {n n' : StNode} {T t t' : TrieTree}

variable {key v : Bytes} {past : List (Bytes × Bytes)} {l last : Path} {st : StackTrie}

section Stacked

variable (keccak : Bytes → Hash)

/-- The `val` of a hashed node. -/
def rawRef (t : TrieTree) : Bytes :=
  if 32 ≤ (enc keccak t).length then (keccak (enc keccak t)).1 else enc keccak t

inductive StRep : StNode → TrieTree → Prop where
  | nil : StRep .nil .nil
  | hashed {t : TrieTree} : t.isNode = true → StRep (.hashed (rawRef keccak t)) t
  | leaf (k : Path) (v : Bytes) : StRep (.leaf k v) (.short (k ++ [term]) (.value v))
  | ext {k : Path} {n : StNode} {t : TrieTree} : StRep n t → StRep (.ext k n) (.short k t)
  | branch {ns : Nibble → StNode} {ts : Nibble → TrieTree} :
      (∀ i, StRep (ns i) (ts i)) → StRep (.branch ns) (.full ts)

/-- The path is at or below a hashed node. -/
def Done : StNode → Path → Prop
  | .hashed _, _ => True
  | .branch ns, a :: r => Done (ns a) r
  | .ext k n, r => k <+: r ∧ Done n (r.drop k.length)
  | _, _ => False

/-- The way to the last key is open, and nothing is to the right of it. -/
def Open : StNode → Path → Prop
  | .leaf k _, last => last = k
  | .ext k n, last => k <+: last ∧ Open n (last.drop k.length)
  | .branch ns, i :: last => Open (ns i) last ∧ ∀ j, i < j → ns j = .nil
  | _, _ => False

/-- A change at `p`, with what is reported for it. -/
structure Reported (p : Path) (n : StNode) (t : TrieTree) (n' : StNode) (t' : TrieTree)
    (out : List Report) : Prop where
  nodup : (out.map Prod.fst).Nodup
  mem : ∀ e, e ∈ out ↔ ∃ r u, t'.nodeAt r = some u ∧ Standalone keccak (p ++ r) u ∧
    Done n' r ∧ ¬ Done n r ∧ e = (p ++ r, entryOf keccak u)
  keep : ∀ r, Done n r → Done n' r ∧ t'.nodeAt r = t.nodeAt r

variable {keccak}

/-! ## Reports -/

/-- Nothing is reported when the hashed nodes stay what they are. -/
theorem Reported.same (hdone : ∀ r, Done n' r ↔ Done n r)
    (hnode : ∀ r, Done n r → t'.nodeAt r = t.nodeAt r) : Reported keccak p n t n' t' [] where
  nodup := nodup_nil
  mem e := by
    refine iff_of_false not_mem_nil ?_
    rintro ⟨r, u, -, -, hd, hnd, -⟩
    exact hnd ((hdone r).mp hd)
  keep r hr := ⟨(hdone r).mpr hr, hnode r hr⟩

theorem Reported.refl : Reported keccak p n t n t [] :=
  Reported.same (fun _ => Iff.rfl) fun _ _ => rfl

theorem Reported.trans {n'' : StNode} {t'' : TrieTree} {out' : List Report}
    (h : Reported keccak p n t n' t' out) (h' : Reported keccak p n' t' n'' t'' out') :
    Reported keccak p n t n'' t'' (out ++ out') where
  nodup := by
    rw [map_append]
    refine List.Nodup.append h.nodup h'.nodup ?_
    -- what the second step reports was not behind a hashed node before it
    intro q hq hq'
    obtain ⟨e, he, rfl⟩ := mem_map.mp hq
    obtain ⟨e', he', heq⟩ := mem_map.mp hq'
    obtain ⟨r, u, -, -, hd, -, rfl⟩ := (h.mem e).mp he
    obtain ⟨r', u', -, -, -, hnd, rfl⟩ := (h'.mem e').mp he'
    rw [append_cancel_left heq] at hnd
    exact hnd hd
  mem e := by
    rw [mem_append, h.mem, h'.mem]
    constructor
    · rintro (⟨r, u, hu, hs, hd, hnd, rfl⟩ | ⟨r, u, hu, hs, hd, hnd, rfl⟩)
      · obtain ⟨hd', heq⟩ := h'.keep r hd
        exact ⟨r, u, heq.trans hu, hs, hd', hnd, rfl⟩
      · exact ⟨r, u, hu, hs, hd, fun hd' => hnd (h.keep r hd').1, rfl⟩
    · rintro ⟨r, u, hu, hs, hd, hnd, rfl⟩
      by_cases hd' : Done n' r
      · have heq := (h'.keep r hd').2
        exact .inl ⟨r, u, heq.symm.trans hu, hs, hd', hnd, rfl⟩
      · exact .inr ⟨r, u, hu, hs, hd, hd', rfl⟩
  keep r hr := by
    obtain ⟨hd, heq⟩ := h.keep r hr
    obtain ⟨hd', heq'⟩ := h'.keep r hd
    exact ⟨hd', heq'.trans heq⟩

theorem done_ext_append (k : Path) (n : StNode) (r : Path) :
    Done (.ext k n) (k ++ r) ↔ Done n r := by
  rw [Done, drop_left]
  exact and_iff_right (prefix_append k r)

/-- A change below a path, outside of which everything stays as it is. -/
theorem Reported.below {m m' : StNode} {u u' : TrieTree}
    (h : Reported keccak (p ++ q) n t n' t' out)
    (hold : ∀ r, (Done m (q ++ r) ↔ Done n r) ∧ u.nodeAt (q ++ r) = t.nodeAt r)
    (hnew : ∀ r, (Done m' (q ++ r) ↔ Done n' r) ∧ u'.nodeAt (q ++ r) = t'.nodeAt r)
    (hout : ∀ r, ¬ q <+: r → (Done m' r ↔ Done m r) ∧ (Done m r → u'.nodeAt r = u.nodeAt r)) :
    Reported keccak p m u m' u' out where
  nodup := h.nodup
  mem e := by
    rw [h.mem]
    constructor
    · rintro ⟨r, w, hw, hs, hd, hnd, rfl⟩
      rw [append_assoc] at hs ⊢
      exact ⟨q ++ r, w, (hnew r).2.trans hw, hs, (hnew r).1.mpr hd,
        fun hd' => hnd ((hold r).1.mp hd'), rfl⟩
    · rintro ⟨r, w, hw, hs, hd, hnd, rfl⟩
      by_cases hr : q <+: r
      · obtain ⟨r', rfl⟩ := hr
        refine ⟨r', w, (hnew r').2.symm.trans hw, ?_, (hnew r').1.mp hd,
          fun hd' => hnd ((hold r').1.mpr hd'), ?_⟩
        · rwa [append_assoc]
        · rw [append_assoc]
      · exact absurd ((hout r hr).1.mp hd) hnd
  keep r hr := by
    by_cases hq : q <+: r
    · obtain ⟨r', rfl⟩ := hq
      obtain ⟨hd, heq⟩ := h.keep r' ((hold r').1.mp hr)
      exact ⟨(hnew r').1.mpr hd, (hnew r').2.trans (heq.trans (hold r').2.symm)⟩
    · exact ⟨(hout r hq).1.mpr hr, (hout r hq).2 hr⟩

/-- A change below an extension. -/
theorem Reported.ext (hq : q ≠ []) (h : Reported keccak (p ++ q) n t n' t' out) :
    Reported keccak p (.ext q n) (.short q t) (.ext q n') (.short q t') out :=
  h.below (fun r => ⟨done_ext_append q n r, nodeAt_short_append hq t r⟩)
    (fun r => ⟨done_ext_append q n' r, nodeAt_short_append hq t' r⟩) fun _ hr =>
    ⟨iff_of_false (fun hd => hr hd.1) fun hd => hr hd.1, fun hd => absurd hd.1 hr⟩

/-- A change of one child of a branch. -/
theorem Reported.branch (h : Reported keccak (p ++ [a]) (ns a) (ts a) n' t' out) :
    Reported keccak p (.branch ns) (.full ts) (.branch (Function.update ns a n'))
      (.full (Function.update ts a t')) out := by
  refine h.below (fun r => ⟨Iff.rfl, rfl⟩) (fun r => ?_) fun r hr => ?_
  · rw [singleton_append, Done, nodeAt, update_self, update_self]
    exact ⟨Iff.rfl, rfl⟩
  · cases r with
    | nil => exact ⟨Iff.rfl, fun hd => absurd hd id⟩
    | cons b r =>
      have hb : b ≠ a := by
        rintro rfl
        exact hr (prefix_append [b] r)
      rw [Done, Done, nodeAt, nodeAt, update_of_ne hb, update_of_ne hb]
      exact ⟨Iff.rfl, fun _ => rfl⟩

/-- Hashing a node whose children are all hashed. -/
theorem Reported.whole (ht : t.isNode = true) (hn : ¬ Done n [])
    (hbelow : ∀ r u, r ≠ [] → t.nodeAt r = some u → Done n r) (val : Bytes) :
    Reported keccak p n t (.hashed val) t (hashBlob keccak p (enc keccak t)).2 := by
  have hroot : ∀ e : Report, (∃ r u, t.nodeAt r = some u ∧ Standalone keccak (p ++ r) u ∧
      Done (.hashed val) r ∧ ¬ Done n r ∧ e = (p ++ r, entryOf keccak u)) ↔
      Standalone keccak p t ∧ e = (p, entryOf keccak t) := by
    intro e
    constructor
    · rintro ⟨r, u, hu, hs, -, hnd, rfl⟩
      by_cases hr : r = []
      · subst hr
        rw [nodeAt_self ht] at hu
        cases hu
        rw [append_nil] at hs ⊢
        exact ⟨hs, rfl⟩
      · exact absurd (hbelow r u hr hu) hnd
    · rintro ⟨hs, rfl⟩
      refine ⟨[], t, nodeAt_self ht, ?_, trivial, hn, ?_⟩
      · rwa [append_nil]
      · rw [append_nil]
  have hstand : Standalone keccak p t ↔ ¬ ((enc keccak t).length < 32 ∧ 0 < p.length) := by
    rw [Standalone, ← length_eq_zero_iff]
    omega
  unfold hashBlob
  by_cases hs : Standalone keccak p t
  · rw [if_neg (hstand.mp hs)]
    refine ⟨by simp, fun e => ?_, fun r hr => ⟨trivial, rfl⟩⟩
    rw [hroot e, mem_singleton]
    exact (and_iff_right hs).symm
  · rw [if_pos (not_not.mp (fun h => hs (hstand.mpr h)))]
    refine ⟨by simp, fun e => ?_, fun r hr => ⟨trivial, rfl⟩⟩
    rw [hroot e]
    exact iff_of_false not_mem_nil fun h => hs h.1

/-! ## Hashing -/

theorem length_hash (h : Hash) : h.1.length = 32 := h.2

/-- What the encoders write for a hashed child. -/
theorem writeRef_rawRef (ht : t.isNode = true) :
    writeRef (some (rawRef keccak t)) = ref keccak t := by
  unfold writeRef rawRef
  by_cases hlen : 32 ≤ (enc keccak t).length
  · rw [if_pos hlen, ref_of_apart (apart_iff.mpr ⟨ht, hlen⟩)]
    simp only [length_hash, lt_irrefl, if_false]
  · rw [if_neg hlen, ref_of_not_apart fun ha => hlen (apart_iff.mp ha).2]
    exact if_pos (not_le.mp hlen)

theorem hashBlob_of_ne_nil (hp : p ≠ []) (t : TrieTree) :
    (hashBlob keccak p (enc keccak t)).1 = rawRef keccak t := by
  have hpos := length_pos_iff.mpr hp
  unfold hashBlob rawRef
  by_cases hlen : 32 ≤ (enc keccak t).length
  · rw [if_neg (by omega), if_pos hlen]
  · rw [if_pos ⟨by omega, hpos⟩, if_neg hlen]

theorem isNil_eq_false (h : n ≠ .nil) : n.isNil = false := by
  cases n with
  | nil => exact absurd rfl h
  | _ => rfl

theorem StRep.isNil (h : StRep keccak n t) : n.isNil = t.isNil := by
  cases h with
  | hashed hnode =>
    cases t with
    | nil => cases hnode
    | value v => rfl
    | short k c => rfl
    | full ts => rfl
  | nil => rfl
  | leaf k v => rfl
  | ext => rfl
  | branch => rfl

theorem StRep.nil_iff (h : StRep keccak n t) : n = .nil ↔ t = .nil := by
  cases h with
  | nil => exact iff_of_true rfl rfl
  | hashed hnode =>
    refine iff_of_false (fun heq => by cases heq) ?_
    rintro rfl
    cases hnode
  | _ => exact iff_of_false (fun heq => by cases heq) fun heq => by cases heq

theorem not_stRep_value : ¬ StRep keccak n (.value v) := by
  intro h
  cases h with
  | hashed hnode => cases hnode

/-- A branch of a stack trie has no value. -/
theorem StRep.term_slot (h : ∀ i, StRep keccak (ns i) (ts i)) (ht : TrieShape N (.full ts)) :
    ts term = .nil := by
  rcases ht.valueSlot with hnil | ⟨v, -, hv⟩
  · exact hnil
  · have hterm := h term
    rw [hv] at hterm
    exact absurd hterm not_stRep_value

/-- The children of a branch after some of them have been hashed. -/
def hashedChildren (keccak : Bytes → Hash) (p : Path) (ns : Nibble → StNode)
    (l : List Nibble) (i : Nibble) : StNode :=
  if i ∈ l ∧ (ns i).isNil = false then .hashed (StNode.hash keccak (ns i) (p ++ [i])).1 else ns i

/-- The reports of the loop over some children of a branch. -/
def childReports (keccak : Bytes → Hash) (p : Path) (ns : Nibble → StNode)
    (l : List Nibble) : List Report :=
  l.flatMap fun i =>
    if (ns i).isNil then [] else (StNode.hash keccak (ns i) (p ++ [i])).2

/-- The loop of `hash` over the children of a branch. -/
theorem reported_children
    (h : ∀ i, ns i ≠ .nil → Reported keccak (p ++ [i]) (ns i) (ts i) (.hashed (StNode.hash keccak (ns i) (p ++ [i])).1) (ts i) (StNode.hash keccak (ns i) (p ++ [i])).2)
    (l : List Nibble) (hl : l.Nodup) :
    Reported keccak p (.branch ns) (.full ts) (.branch (hashedChildren keccak p ns l)) (.full ts)
      (childReports keccak p ns l) := by
  induction l using reverseRecOn with
  | nil =>
    have hsame : hashedChildren keccak p ns [] = ns := by
      funext i
      rw [hashedChildren, if_neg fun hi => absurd hi.1 not_mem_nil]
    rw [hsame]
    exact Reported.refl
  | append_singleton l a ih =>
    obtain ⟨hnl, -, hdisj⟩ := nodup_append.mp hl
    have ha : a ∉ l := fun hmem => hdisj a hmem a (mem_singleton.mpr rfl) rfl
    have hrest := ih hnl
    have hreports : childReports keccak p ns (l ++ [a]) = childReports keccak p ns l ++
        if (ns a).isNil then [] else (StNode.hash keccak (ns a) (p ++ [a])).2 := by
      simp [childReports, flatMap_append]
    have hkeep : hashedChildren keccak p ns l a = ns a := by
      rw [hashedChildren, if_neg fun hi => ha hi.1]
    have hother : ∀ i, i ≠ a →
        hashedChildren keccak p ns (l ++ [a]) i = hashedChildren keccak p ns l i := by
      intro i hi
      simp [hashedChildren, hi]
    rw [hreports]
    refine hrest.trans ?_
    by_cases hnil : ns a = .nil
    · have hsame : hashedChildren keccak p ns (l ++ [a]) = hashedChildren keccak p ns l := by
        funext i
        by_cases hi : i = a
        · subst hi
          rw [hkeep, hashedChildren, hnil, if_neg fun h => Bool.noConfusion h.2]
        · exact hother i hi
      rw [hsame, hnil]
      exact Reported.refl
    · have hnil' := isNil_eq_false hnil
      have hupd : hashedChildren keccak p ns (l ++ [a]) =
          Function.update (hashedChildren keccak p ns l) a
            (.hashed (StNode.hash keccak (ns a) (p ++ [a])).1) := by
        funext i
        by_cases hi : i = a
        · subst hi
          rw [update_self, hashedChildren, if_pos]
          exact ⟨mem_append_right l (mem_singleton.mpr rfl), hnil'⟩
        · rw [update_of_ne hi, hother i hi]
      have hstep := h a hnil
      rw [← hkeep] at hstep
      have hbranch := Reported.branch hstep
      rw [hkeep, update_eq_self] at hbranch
      rw [hupd, hnil', if_neg Bool.false_ne_true]
      exact hbranch

/-- A branch is written with the references to its children. -/
theorem fullnodeEncoder_eq (h : ∀ i, StRep keccak (ns i) (ts i)) (ht : TrieShape N (.full ts))
    (hval : ∀ i, i ≠ term → ns i ≠ .nil → (StNode.hash keccak (ns i) (p ++ [i])).1 = rawRef keccak (ts i)) :
    fullnodeEncoder (fun i => if i = term ∨ (ns i).isNil = true then none
      else some (StNode.hash keccak (ns i) (p ++ [i])).1) = enc keccak (.full ts) := by
  rw [fullnodeEncoder, enc_full]
  congr 2
  funext i
  by_cases hi : i = term
  · rw [if_pos (.inl hi), hi, StRep.term_slot h ht]
    rfl
  by_cases hnil : (ns i).isNil = true
  · rw [if_pos (.inr hnil)]
    rw [(h i).isNil, isNil_iff] at hnil
    rw [hnil]
    rfl
  · have hts : ts i ≠ .nil := by
      rw [(h i).isNil, isNil_iff] at hnil
      exact hnil
    rw [if_neg (not_or.mpr ⟨hi, hnil⟩), hval i hi fun heq => hts ((h i).nil_iff.mp heq)]
    exact writeRef_rawRef ((ht.slot hi).resolve_left hts).isNode

theorem StRep.hash_spec (h : StRep keccak n t) :
    ∀ {N : Nat} {p : Path}, TrieShape N t → (p ≠ [] ∨ ∀ val, n ≠ .hashed val) →
      (StNode.hash keccak n p).1 = (if p = [] then (keccak (enc keccak t)).1 else rawRef keccak t) ∧
      Reported keccak p n t (.hashed (StNode.hash keccak n p).1) t (StNode.hash keccak n p).2 := by
  have hval : ∀ (p : Path) (u : TrieTree), (hashBlob keccak p (enc keccak u)).1 =
      if p = [] then (keccak (enc keccak u)).1 else rawRef keccak u := by
    intro p u
    by_cases hp : p = []
    · rw [if_pos hp, hashBlob, if_neg]
      rw [hp]
      exact fun h => absurd h.2 (lt_irrefl 0)
    · rw [if_neg hp]
      exact hashBlob_of_ne_nil hp u
  induction h with
  | nil => intro N p ht; exact absurd rfl ht.ne_nil
  | @hashed t hnode =>
    intro N p ht hp
    have hp' : p ≠ [] := hp.resolve_right fun h => h _ rfl
    refine ⟨by rw [if_neg hp']; rfl, ?_⟩
    exact Reported.refl
  | leaf k v =>
    intro N p ht hp
    have hblob : leafNodeEncoder (hexToCompactInPlace ((k ++ [term]).map nibbleByte)) v =
        enc keccak (.short (k ++ [term]) (.value v)) := by
      rw [leafNodeEncoder, hexToCompactInPlace_eq ht.word.2, enc_short, ref_value]
    rw [StNode.hash, hblob]
    refine ⟨hval p _, Reported.whole rfl id ?_ _⟩
    intro r u hr hu
    have hnode : HasNode (Tree.short (k ++ [term]) (Tree.value v)) r := by rw [HasNode, hu]; rfl
    rcases (hasNode_short _ _ r).mp hnode with hnil | ⟨r', -, hv⟩
    · exact absurd hnil hr
    · exact absurd hv (hasNode_value v r')
  | @ext k n t hn ih =>
    intro N p ht hp
    have hk : k ≠ [] := ht.word.2
    have hpk : p ++ k ≠ [] := append_ne_nil_of_right_ne_nil p hk
    have hshape : ∃ M, TrieShape M t := by
      cases ht with
      | leaf => exact absurd hn not_stRep_value
      | ext _ _ _ hts => exact ⟨_, hts⟩
    obtain ⟨M, hshape⟩ := hshape
    obtain ⟨hv, hrep⟩ := ih hshape (.inl hpk)
    rw [if_neg hpk] at hv
    have hblob : extNodeEncoder (hexToCompactInPlace (k.map nibbleByte))
        (StNode.hash keccak n (p ++ k)).1 = enc keccak (.short k t) := by
      rw [extNodeEncoder, hexToCompactInPlace_eq hk, hv, writeRef_rawRef hshape.isNode, enc_short]
    rw [StNode.hash]
    simp only [hblob]
    refine ⟨hval p _, (hrep.ext hk).trans (Reported.whole rfl ?_ ?_ _)⟩
    · rintro ⟨hpre, -⟩
      exact hk (prefix_nil.mp hpre)
    · intro r u hr hu
      have hnode : HasNode (Tree.short k t) r := by rw [HasNode, hu]; rfl
      rcases (hasNode_short k t r).mp hnode with hnil | ⟨r', rfl, -⟩
      · exact absurd hnil hr
      · exact (done_ext_append k _ r').mpr trivial
  | @branch ns ts hns ih =>
    intro N p ht hp
    have hpi : ∀ i, p ++ [i] ≠ [] := fun i => concat_ne_nil i p
    have hshape : ∀ i, i ≠ term → ns i ≠ .nil → TrieShape (N - 1) (ts i) := fun i hi hne =>
      (ht.slot hi).resolve_left fun hnil => hne ((hns i).nil_iff.mpr hnil)
    have hterm : ns term = .nil := (hns term).nil_iff.mpr (StRep.term_slot hns ht)
    have hne_term : ∀ i, ns i ≠ .nil → i ≠ term := by
      rintro i hne rfl
      exact hne hterm
    have hvals : ∀ i, i ≠ term → ns i ≠ .nil →
        (StNode.hash keccak (ns i) (p ++ [i])).1 = rawRef keccak (ts i) := by
      intro i hi hne
      have hv := (ih i (hshape i hi hne) (.inl (hpi i))).1
      rwa [if_neg (hpi i)] at hv
    have hloop := reported_children
      (fun i hne => (ih i (hshape i (hne_term i hne) hne) (.inl (hpi i))).2)
      childSlots nodup_childSlots
    rw [StNode.hash]
    simp only [fullnodeEncoder_eq hns ht hvals]
    refine ⟨hval p _, hloop.trans (Reported.whole rfl id ?_ _)⟩
    intro r u hr hu
    cases r with
    | nil => exact absurd rfl hr
    | cons a r =>
      have hne : ns a ≠ .nil := by
        intro hnil
        have hu' : (ts a).nodeAt r = some u := hu
        rw [(hns a).nil_iff.mp hnil] at hu'
        cases hu'
      have hnil := isNil_eq_false hne
      rw [Done, hashedChildren, if_pos ⟨mem_childSlots.mpr (hne_term a hne), hnil⟩]
      trivial

/-! ## Inserting -/

theorem getDiffIndex_append (chunk key : Path) :
    getDiffIndex chunk (chunk ++ key) = some chunk.length := by
  induction chunk with
  | nil => cases key <;> rfl
  | cons a chunk ih =>
    rw [cons_append, getDiffIndex, if_neg (not_not.mpr rfl), ih]
    rfl

theorem getDiffIndex_fork (hab : a ≠ b) (q chunk key : Path) :
    getDiffIndex (q ++ a :: chunk) (q ++ b :: key) = some q.length := by
  induction q with
  | nil =>
    show getDiffIndex (a :: chunk) (b :: key) = some 0
    rw [getDiffIndex, if_pos hab]
  | cons c q ih =>
    rw [cons_append, cons_append, getDiffIndex, if_neg (not_not.mpr rfl), ih]
    rfl

/-- An extension, or only the node below it. -/
def stGraft (q : Path) (n : StNode) : StNode :=
  if q.length = 0 then n else .ext q n

theorem stGraft_nil (n : StNode) : stGraft [] n = n := rfl

theorem stGraft_of_ne_nil (hq : q ≠ []) (n : StNode) : stGraft q n = .ext q n :=
  if_neg fun h => hq (length_eq_zero_iff.mp h)

theorem StRep.graft (h : StRep keccak n t) (q : Path) : StRep keccak (stGraft q n) (graft q t) := by
  by_cases hq : q = []
  · subst hq
    exact h
  · rw [stGraft_of_ne_nil hq, graft_of_ne_nil hq]
    exact .ext h

theorem Open.graft (h : Open n last) (q : Path) : Open (stGraft q n) (q ++ last) := by
  by_cases hq : q = []
  · subst hq
    exact h
  · rw [stGraft_of_ne_nil hq, Open, drop_left]
    exact ⟨prefix_append q last, h⟩

theorem Reported.graft (h : Reported keccak (p ++ q) n t n' t' out) :
    Reported keccak p (stGraft q n) (graft q t) (stGraft q n') (graft q t') out := by
  by_cases hq : q = []
  · subst hq
    rw [append_nil] at h
    exact h
  · rw [stGraft_of_ne_nil hq, stGraft_of_ne_nil hq, graft_of_ne_nil hq, graft_of_ne_nil hq]
    exact h.ext hq

theorem done_stGraft (q : Path) (n : StNode) (r : Path) :
    Done (stGraft q n) r ↔ ∃ r', r = q ++ r' ∧ Done n r' := by
  by_cases hq : q = []
  · subst hq
    rw [stGraft_nil]
    simp only [nil_append, exists_eq_left']
  rw [stGraft_of_ne_nil hq]
  constructor
  · rintro ⟨⟨r', rfl⟩, hd⟩
    rw [drop_left] at hd
    exact ⟨r', rfl, hd⟩
  · rintro ⟨r', rfl, hd⟩
    exact (done_ext_append q n r').mpr hd

/-- A branch with one child. -/
def lone (a : Nibble) (n : StNode) : StNode := .branch (Function.update (fun _ => .nil) a n)

def loneTree (a : Nibble) (t : TrieTree) : TrieTree :=
  .full (Function.update (fun _ => .nil) a t)

theorem done_lone (a : Nibble) (n : StNode) (r : Path) :
    Done (lone a n) r ↔ ∃ r', r = a :: r' ∧ Done n r' := by
  cases r with
  | nil =>
    refine iff_of_false id ?_
    rintro ⟨r', hr, -⟩
    cases hr
  | cons b r =>
    rw [lone, Done]
    by_cases hb : b = a
    · subst hb
      rw [update_self]
      constructor
      · exact fun hd => ⟨r, rfl, hd⟩
      · rintro ⟨r', hr, hd⟩
        cases hr
        exact hd
    · rw [update_of_ne hb]
      refine iff_of_false id ?_
      rintro ⟨r', hr, -⟩
      cases hr
      exact hb rfl

/-- Splitting an extension into two with a branch between them reports nothing. -/
theorem reported_split (n : StNode) (t : TrieTree) :
    Reported keccak p (stGraft (q ++ a :: l) n) (graft (q ++ a :: l) t)
      (stGraft q (lone a (stGraft l n))) (graft q (loneTree a (graft l t))) [] := by
  have hdone : ∀ r, Done (stGraft q (lone a (stGraft l n))) r ↔
      ∃ r', r = q ++ a :: l ++ r' ∧ Done n r' := by
    intro r
    rw [done_stGraft]
    constructor
    · rintro ⟨r₁, rfl, h₁⟩
      obtain ⟨r₂, rfl, h₂⟩ := (done_lone a _ r₁).mp h₁
      obtain ⟨r₃, rfl, h₃⟩ := (done_stGraft l n r₂).mp h₂
      refine ⟨r₃, ?_, h₃⟩
      rw [append_assoc, cons_append]
    · rintro ⟨r', rfl, h'⟩
      refine ⟨a :: (l ++ r'), ?_, ?_⟩
      · rw [append_assoc, cons_append]
      · exact (done_lone a _ _).mpr ⟨l ++ r', rfl, (done_stGraft l n _).mpr ⟨r', rfl, h'⟩⟩
  refine Reported.same (fun r => ?_) fun r hr => ?_
  · rw [hdone, done_stGraft]
  · obtain ⟨r', rfl, -⟩ := (done_stGraft _ n r).mp hr
    rw [nodeAt_graft_append, append_assoc, nodeAt_graft_append, cons_append, loneTree,
      nodeAt, update_self, nodeAt_graft_append]

/-- A fork: what was there is hashed, and a leaf is put beside it. -/
theorem StRep.fork (hab : a < b) (h : StRep keccak n t) (ht : TrieShape N t) (p q l key : Path)
    (c : TrieTree) (hc : Radix.Tree.graft l c = t) (v : Bytes) :
    let out := StNode.hash keccak n (p ++ q ++ [a])
    let n' := stGraft q (forked a b out.1 key v)
    let t' := Radix.Tree.graft q (Radix.Tree.fork b a (key ++ [term]) l c v)
    StRep keccak n' t' ∧ Open n' (q ++ b :: key) ∧
      Reported keccak p (stGraft q (lone a n)) (Radix.Tree.graft q (loneTree a t)) n' t'
        out.2 := by
  intro out n' t'
  have hpa : p ++ q ++ [a] ≠ [] := concat_ne_nil a _
  obtain ⟨hval, hrep⟩ := h.hash_spec (p := p ++ q ++ [a]) ht (.inl hpa)
  rw [if_neg hpa] at hval
  have hleaf : Radix.Tree.graft (key ++ [term]) (Tree.value v) =
      .short (key ++ [term]) (.value v) :=
    graft_of_ne_nil (concat_ne_nil term key) _
  have hopen : Open (forked a b out.1 key v) (b :: key) := by
    rw [forked, Open, update_self]
    refine ⟨rfl, fun j hj => ?_⟩
    rw [update_of_ne (ne_of_gt hj), update_of_ne (ne_of_gt (hab.trans hj))]
  refine ⟨StRep.graft ?_ q, hopen.graft q, Reported.graft ?_⟩
  · refine .branch fun i => ?_
    by_cases hib : i = b
    · subst hib
      rw [update_self, update_self, hleaf]
      exact .leaf key v
    rw [update_of_ne hib, update_of_ne hib]
    by_cases hia : i = a
    · subst hia
      rw [update_self, update_self, hc, hval]
      exact .hashed ht.isNode
    · rw [update_of_ne hia, update_of_ne hia]
      exact .nil
  · -- hash the child that was there, then add the leaf
    have hfirst : Reported keccak (p ++ q) (lone a n) (loneTree a t) (lone a (.hashed out.1))
        (loneTree a t) out.2 := by
      have hstep : Reported keccak (p ++ q ++ [a]) (Function.update (fun _ => StNode.nil) a n a)
          (Function.update (fun _ => Radix.Tree.nil) a t a) (.hashed out.1) t out.2 := by
        rw [update_self, update_self]
        exact hrep
      have hbranch := Reported.branch hstep
      rw [update_idem, update_idem] at hbranch
      exact hbranch
    have hsecond : Reported keccak (p ++ q) (lone a (.hashed out.1)) (loneTree a t)
        (forked a b out.1 key v) (Radix.Tree.fork b a (key ++ [term]) l c v) [] := by
      have hstep : Reported keccak (p ++ q ++ [b])
          (Function.update (fun _ => StNode.nil) a (.hashed out.1) b)
          (Function.update (fun _ => Radix.Tree.nil) a t b) (.leaf key v)
          (Radix.Tree.graft (key ++ [term]) (.value v)) [] := by
        rw [update_of_ne (ne_of_gt hab), update_of_ne (ne_of_gt hab)]
        exact Reported.same (fun _ => Iff.rfl) fun _ hd => absurd hd id
      have hbranch := Reported.branch hstep
      rw [Radix.Tree.fork, hc]
      exact hbranch
    have hboth := hfirst.trans hsecond
    rw [append_nil] at hboth
    exact hboth

/-- The loop over the elder siblings hashes some children before the slot. -/
theorem hashElder_spec (h : ∀ i, StRep keccak (ns i) (ts i)) (ht : TrieShape N (.full ts))
    (idx : Nibble) :
    let out := hashElder keccak ns idx p
    Reported keccak p (.branch ns) (.full ts) (.branch out.1) (.full ts) out.2 ∧
      (∀ i, StRep keccak (out.1 i) (ts i)) ∧ ∀ j, idx ≤ j → out.1 j = ns j := by
  unfold hashElder
  cases helder : elder ns idx with
  | none =>
    exact ⟨Reported.refl, h, fun _ _ => rfl⟩
  | some i =>
    have hmem := mem_of_find?_eq_some helder
    rw [mem_reverse, mem_filter, decide_eq_true_eq] at hmem
    have hterm : i ≠ term := mem_childSlots.mp hmem.1
    have hnil : ts i ≠ .nil := by
      intro hnil
      have hfound := find?_some helder
      rw [(h i).isNil, hnil] at hfound
      cases hfound
    have hshape := (ht.slot hterm).resolve_left hnil
    have hpi : p ++ [i] ≠ [] := concat_ne_nil i p
    obtain ⟨hval, hrep⟩ := (h i).hash_spec (p := p ++ [i]) hshape (.inl hpi)
    rw [if_neg hpi] at hval
    dsimp only
    refine ⟨?_, fun j => ?_, fun j hj => ?_⟩
    · have hbranch := Reported.branch hrep
      rw [update_eq_self] at hbranch
      exact hbranch
    · by_cases hj : j = i
      · subst hj
        rw [update_self, hval]
        exact .hashed hshape.isNode
      · rw [update_of_ne hj]
        exact h j
    · rw [update_of_ne (ne_of_gt (lt_of_lt_of_le hmem.2 hj))]

variable (keccak) in
/-- What `insert` makes of a node for a key after the last one: it stands for the tree with
the new entry, and the way to the new key is open. -/
structure Inserted (p : Path) (n : StNode) (t : TrieTree) (key : Path) (v : Bytes)
    (n' : StNode) (out : List Report) : Prop where
  rep : StRep keccak n' (t.insert (key ++ [term]) v)
  way : Open n' key
  reported : Reported keccak p n t n' (t.insert (key ++ [term]) v) out

/-- A key that leaves the chunk of a leaf or of an extension. -/
theorem inserted_fork (hab : a < b) {n₀ : StNode} {c : TrieTree} (h : StRep keccak n (graft l c))
    (ht : TrieShape N (graft l c))
    (hsplit : Reported keccak p n₀ (.short (q ++ a :: l) c) (stGraft q (lone a n)) (graft q (loneTree a (graft l c))) [])
    (key : Path) (v : Bytes) :
    Inserted keccak p n₀ (.short (q ++ a :: l) c) (q ++ b :: key) v
      (stGraft q (forked a b (StNode.hash keccak n (p ++ q ++ [a])).1 key v))
      (StNode.hash keccak n (p ++ q ++ [a])).2 := by
  obtain ⟨hrep, hopen, hreported⟩ := h.fork hab ht p q l key c rfl v
  have htree : Radix.Tree.insert (.short (q ++ a :: l) c) (q ++ b :: key ++ [term]) v =
      graft q (fork b a (key ++ [term]) l c v) := by
    rw [append_assoc, cons_append]
    exact insert_short_fork (ne_of_gt hab) q (key ++ [term]) l c v
  refine ⟨?_, hopen, ?_⟩
  · rw [htree]
    exact hrep
  · rw [htree]
    exact hsplit.trans hreported

theorem Open.ne_nil (h : Open n last) : n ≠ .nil := by
  rintro rfl
  exact h

theorem take_succ_fork (q : Path) (a : Nibble) (l : Path) :
    (q ++ a :: l).take (q.length + 1) = q ++ [a] := by
  rw [take_append, take_of_length_le (Nat.le_succ _), Nat.add_sub_cancel_left]
  rfl

theorem drop_succ_fork (q : Path) (a : Nibble) (l : Path) :
    (q ++ a :: l).drop (q.length + 1) = l := by
  rw [drop_append, drop_of_length_le (Nat.le_succ _), Nat.add_sub_cancel_left]
  rfl

theorem stInsert_leaf_fork (hab : a ≠ b) (q l key : Path) (val v : Bytes) (p : Path) :
    StNode.insert keccak (.leaf (q ++ a :: l) val) (q ++ b :: key) v p =
      some (stGraft q (forked a b (StNode.hash keccak (.leaf l val) (p ++ q ++ [a])).1 key v),
        (StNode.hash keccak (.leaf l val) (p ++ q ++ [a])).2) := by
  have hlen : ¬ (q ++ a :: l).length ≤ q.length := by
    rw [length_append, length_cons]
    omega
  rw [StNode.insert, getDiffIndex_fork hab]
  simp only [if_neg hlen, drop_left, take_succ_fork, drop_succ_fork, take_left, append_assoc]
  rfl

theorem stInsert_ext_fork (hab : a ≠ b) (q l key : Path) (child : StNode) (v : Bytes) (p : Path) :
    StNode.insert keccak (.ext (q ++ a :: l) child) (q ++ b :: key) v p =
      some (stGraft q (forked a b (StNode.hash keccak (stGraft l child) (p ++ q ++ [a])).1 key v),
        (StNode.hash keccak (stGraft l child) (p ++ q ++ [a])).2) := by
  have hlen : q.length ≠ (q ++ a :: l).length := by
    rw [length_append, length_cons]
    omega
  rw [StNode.insert, getDiffIndex_fork hab]
  simp only [if_neg hlen, drop_left, take_succ_fork, drop_succ_fork, take_left, append_assoc]
  cases l with
  | nil =>
    have hlast : ¬ q.length < (q ++ [a]).length - 1 := by
      rw [length_append, length_singleton]
      omega
    rw [if_neg hlast, stGraft_nil]
    rfl
  | cons c l =>
    have hlast : q.length < (q ++ a :: c :: l).length - 1 := by
      rw [length_append, length_cons, length_cons]
      omega
    rw [if_pos hlast, stGraft_of_ne_nil (cons_ne_nil c l)]
    rfl

theorem stInsert_ext_append {k key : Path} {child child' : StNode}
    (h : StNode.insert keccak child key v (p ++ k) = some (child', out)) :
    StNode.insert keccak (.ext k child) (k ++ key) v p = some (.ext k child', out) := by
  rw [StNode.insert, getDiffIndex_append]
  simp only [if_true, drop_left, take_left, h]

/-- Inserting a key after the last one. The induction is on the nodes of the way to the
last key, along which nothing is hashed. -/
theorem StRep.insert_spec (h : StRep keccak n t) :
    ∀ {N : Nat} {p last key : Path}, TrieShape N t → Open n last → last < key →
      ¬ last <+: key → term ∉ key → ∀ v, ∃ n' out, StNode.insert keccak n key v p = some (n', out) ∧
          Inserted keccak p n t key v n' out := by
  induction h with
  | nil => intro N p last key ht hopen; exact absurd hopen id
  | hashed hnode => intro N p last key ht hopen; exact absurd hopen id
  | leaf k val =>
    intro N p last key ht hopen hlt hpre hkey v
    have hlast : last = k := hopen
    subst hlast
    obtain ⟨q, a, l, b, key', hab, rfl, rfl⟩ := Radix.fork_of_lt hlt hpre
    refine ⟨_, _, stInsert_leaf_fork (ne_of_lt hab) q l key' val v p, ?_⟩
    have hl : l ++ [term] ≠ [] := concat_ne_nil term l
    have hgraft : Radix.Tree.graft (l ++ [term]) (Tree.value val) =
        .short (l ++ [term]) (.value val) := graft_of_ne_nil hl _
    have hshape : TrieShape N (.short (l ++ [term]) (.value val)) := by
      rw [append_assoc, cons_append] at ht
      cases ht with
      | leaf hk hlen hv =>
        refine .leaf ?_ ?_ hv
        · rw [← singleton_append, ← append_assoc] at hk
          exact ((Radix.terminated_append_iff hl).mp hk).2
        · rw [length_append, length_cons] at hlen
          omega
    rw [append_assoc, cons_append]
    have hleaf : StRep keccak (.leaf l val) (Radix.Tree.graft (l ++ [term]) (.value val)) := by
      rw [hgraft]
      exact .leaf l val
    rw [← hgraft] at hshape
    refine inserted_fork hab hleaf hshape ?_ key' v
    · refine Reported.same (fun r => ?_) fun r hr => absurd hr id
      refine iff_of_false ?_ id
      rw [done_stGraft]
      rintro ⟨r₁, -, h₁⟩
      obtain ⟨r₂, -, h₂⟩ := (done_lone a _ r₁).mp h₁
      exact h₂
  | @ext k n t hn ih =>
    intro N p last key ht hopen hlt hpre hkey v
    obtain ⟨⟨last', rfl⟩, hopen'⟩ := hopen
    rw [drop_left] at hopen'
    cases ht with
    | leaf => exact absurd hn not_stRep_value
    | @ext _ m _ ts hk hterm hlen hts =>
    rcases Radix.prefix_or_fork key k with ⟨key', rfl⟩ | ⟨l, -, rfl⟩ |
      ⟨q, b, key', a, l, hba, rfl, rfl⟩
    · -- the key goes on below the extension
      rw [Radix.append_lt_append_iff] at hlt
      rw [prefix_append_right_inj] at hpre
      have hkey' : term ∉ key' := fun hmem => hkey (mem_append_right k hmem)
      obtain ⟨n', out, heq, hins⟩ := ih (p := p ++ k) hts hopen' hlt hpre hkey' v
      refine ⟨_, _, stInsert_ext_append heq, ?_, ?_, ?_⟩
      · rw [append_assoc, insert_short_append hk]
        exact .ext hins.rep
      · rw [Open, drop_left]
        exact ⟨prefix_append k key', hins.way⟩
      · rw [append_assoc, insert_short_append hk]
        exact hins.reported.ext hk
    · -- the last key starts with the new one
      refine absurd hlt (Radix.not_lt_of_isPrefix ?_)
      rw [append_assoc]
      exact prefix_append key (l ++ last')
    · have hab : a < b := by
        rw [append_assoc, Radix.append_lt_append_iff, cons_append, cons_lt_cons_iff] at hlt
        rcases hlt with hab | ⟨hab, -⟩
        · exact hab
        · exact absurd hab.symm hba
      refine ⟨_, _, stInsert_ext_fork (ne_of_lt hab) q l key' n v p, ?_⟩
      rw [length_append, length_cons] at hlen
      have hl : term ∉ l := fun hmem =>
        hterm (mem_append_right q (mem_cons_of_mem a hmem))
      refine inserted_fork hab (hn.graft l) (shape_graft_full hl (n := N) (by omega) hts) ?_ key' v
      have hsplit : Reported keccak p (stGraft (q ++ a :: l) n)
          (Radix.Tree.graft (q ++ a :: l) (.full ts)) _ _ [] := reported_split n (.full ts)
      rwa [stGraft_of_ne_nil hk, graft_of_ne_nil hk] at hsplit
  | @branch ns ts hns ih =>
    intro N p last key ht hopen hlt hpre hkey v
    cases last with
    | nil => exact absurd hopen id
    | cons i last =>
    cases key with
    | nil => exact absurd hlt (not_lt_nil _)
    | cons idx key =>
    obtain ⟨hopen, hright⟩ := hopen
    obtain ⟨helder, hrep, hsame⟩ := hashElder_spec (p := p) hns ht idx
    have hidx : idx ≠ term := fun heq => hkey (heq ▸ mem_cons_self)
    have hkey' : term ∉ key := fun hmem => hkey (mem_cons_of_mem idx hmem)
    -- what is put into the slot, after the elder siblings
    have hput : ∀ (n' : StNode) (out : List Report),
        Inserted keccak (p ++ [idx]) (ns idx) (ts idx) key v n' out →
        (∀ j, idx < j → ns j = .nil) →
        Inserted keccak p (.branch ns) (.full ts) (idx :: key) v
          (.branch (Function.update (hashElder keccak ns idx p).1 idx n'))
          ((hashElder keccak ns idx p).2 ++ out) := by
      intro n' out hins hnil
      refine ⟨?_, ⟨?_, ?_⟩, ?_⟩
      · rw [cons_append, insert_full_cons]
        refine .branch fun j => ?_
        by_cases hj : j = idx
        · subst hj
          rw [update_self, update_self]
          exact hins.rep
        · rw [update_of_ne hj, update_of_ne hj]
          exact hrep j
      · rw [update_self]
        exact hins.way
      · intro j hj
        rw [update_of_ne (ne_of_gt hj), hsame j (le_of_lt hj)]
        exact hnil j hj
      · rw [cons_append, insert_full_cons]
        refine helder.trans (Reported.branch ?_)
        rw [hsame idx le_rfl]
        exact hins.reported
    rw [cons_lt_cons_iff] at hlt
    rcases hlt with hlt | ⟨rfl, hlt⟩
    · have hnil : ns idx = .nil := hright idx hlt
      have htree : ts idx = .nil := (hns idx).nil_iff.mp hnil
      refine ⟨_, _, ?_, hput (.leaf key v) [] ⟨?_, rfl, ?_⟩ fun j hj =>
        hright j (hlt.trans hj)⟩
      · rw [StNode.insert, hnil, append_nil]
        rfl
      · rw [htree, Radix.Tree.insert_nil, graft_of_ne_nil (concat_ne_nil term key)]
        exact .leaf key v
      · rw [hnil]
        exact Reported.same (fun _ => Iff.rfl) fun _ hd => absurd hd id
    · have hne : ns i ≠ .nil := hopen.ne_nil
      have hisNil := isNil_eq_false hne
      have htree : ts i ≠ .nil := fun hnil => hne ((hns i).nil_iff.mpr hnil)
      have hpre' : ¬ last <+: key := fun h => hpre (cons_prefix_cons.mpr ⟨rfl, h⟩)
      obtain ⟨n', out, heq, hins⟩ := ih i (p := p ++ [i])
        ((ht.slot hidx).resolve_left htree) hopen hlt hpre' hkey' v
      refine ⟨_, _, ?_, hput n' out hins hright⟩
      rw [StNode.insert, hisNil, heq]
      rfl

/-! ## The stack trie -/

variable (keccak) in
/-- A stack trie that stands for `T`, with the nodes reported so far. -/
structure Stacks (st : StackTrie) (T : TrieTree) : Prop where
  rep : (st.root = .empty ∧ T = .nil ∧ st.last = none) ∨
    ∃ last, st.last = some last ∧ StRep keccak st.root T ∧ Open st.root last
  reported : Reported keccak [] .empty .nil st.root T st.reports

theorem stacks_new : Stacks keccak NewStackTrie .nil where
  rep := Or.inl ⟨rfl, rfl, rfl⟩
  reported := Reported.refl

/-- One update with a key after the last one, and not an extension of it. -/
theorem Stacks.update (h : Stacks keccak st T) (hT : TrieOk T) {value : Bytes} (hkey : key ≠ [])
    (hvalue : value ≠ [])
    (hlast : ∀ last, st.last = some last → last < nibbles key ∧ ¬ last <+: nibbles key) :
    ∃ st', st.Update keccak key value = .ok st' ∧ st'.last = some (nibbles key) ∧
      Stacks keccak st' (T.insert (keybytesToHex key) value) := by
  have hhex : writeHexKey key = some (nibbles key) := by
    rw [writeHexKey, if_neg (by simpa using hkey)]
  have hemp : value.isEmpty = false := by
    cases value with
    | nil => exact absurd rfl hvalue
    | cons => rfl
  have hterm := term_not_mem_nibbles key
  have hupdate : ∀ (root : StNode) (out : List Report), st.last.getD [] < nibbles key →
      StNode.insert keccak st.root (nibbles key) value [] = some (root, out) →
      st.Update keccak key value =
        .ok { root := root, last := some (nibbles key), reports := st.reports ++ out } := by
    intro root out hlt heq
    rw [StackTrie.Update, hemp, hhex]
    simp only [if_pos hlt, heq]
    rfl
  rcases h.rep with ⟨hroot, rfl, hnone⟩ | ⟨last, hsome, hrep, hopen⟩
  · have hlt : st.last.getD [] < nibbles key := by
      rw [hnone]
      cases key with
      | nil => exact absurd rfl hkey
      | cons b key => exact nil_lt_cons _ _
    refine ⟨_, hupdate (.leaf (nibbles key) value) [] hlt ?_, rfl, ?_, ?_⟩
    · rw [hroot]
      rfl
    · refine .inr ⟨_, rfl, ?_, rfl⟩
      rw [Radix.Tree.insert_nil, graft_of_ne_nil (terminated_keybytesToHex key).ne_nil]
      exact .leaf (nibbles key) value
    · have hreported := h.reported
      rw [hroot] at hreported
      exact hreported.trans (Reported.same (fun _ => Iff.rfl) fun _ hd => absurd hd id)
  · obtain ⟨hlt, hpre⟩ := hlast last hsome
    have hshape := hT.fits.resolve_left fun hnil => hopen.ne_nil (hrep.nil_iff.mpr hnil)
    obtain ⟨root, out, heq, hins⟩ := hrep.insert_spec (p := []) hshape hopen hlt hpre hterm value
    refine ⟨_, hupdate root out ?_ heq, rfl, ?_, ?_⟩
    · rw [hsome]
      exact hlt
    · exact .inr ⟨_, rfl, hins.rep, hins.way⟩
    · exact h.reported.trans hins.reported

/-- The entries that may be given to a stack trie. -/
structure StackInput (pairs : List (Bytes × Bytes)) : Prop where
  ascending : pairs.Pairwise fun e e' => e.1 < e'.1
  prefixFree : pairs.Pairwise fun e e' => ¬ e.1 <+: e'.1
  keys : ∀ e ∈ pairs, e.1 ≠ [] ∧ KeyOk e.1
  values : ∀ e ∈ pairs, e.2 ≠ [] ∧ e.2.length < 2 ^ 63

/-- The entries of a trie are the given ones. -/
def HasEntries (T : TrieTree) (pairs : List (Bytes × Bytes)) : Prop :=
  ∀ key value, T.lookup (keybytesToHex key) = some value ↔ (key, value) ∈ pairs

/-- Updates one after the other, up to the first that fails. -/
def updateAll (keccak : Bytes → Hash) (st : StackTrie) :
    List (Bytes × Bytes) → Except StackErr StackTrie
  | [] => .ok st
  | (key, v) :: pairs =>
    match st.Update keccak key v with
    | .error e => .error e
    | .ok st => updateAll keccak st pairs

theorem HasEntries.insert (h : HasEntries T past) (hT : TrieOk T) (hnew : ∀ e ∈ past, e.1 ≠ key)
    (value : Bytes) : HasEntries (T.insert (keybytesToHex key) value) (past ++ [(key, value)]) := by
  intro key' value'
  rw [lookup_insert_key hT, mem_append, mem_singleton, Prod.mk.injEq]
  by_cases hkey : key' = key
  · subst hkey
    rw [if_pos rfl, Option.some.injEq]
    constructor
    · rintro rfl
      exact .inr ⟨rfl, rfl⟩
    · rintro (hmem | ⟨-, rfl⟩)
      · exact absurd rfl (hnew _ hmem)
      · rfl
  · rw [if_neg hkey, h key' value']
    exact ⟨.inl, fun hor => hor.resolve_right fun heq => hkey heq.1⟩

/-- All of the entries, after some others. -/
theorem Stacks.updateAll (pairs : List (Bytes × Bytes)) (h : Stacks keccak st T) (hT : TrieOk T)
    (hpast : HasEntries T past)
    (hlast : ∀ last, st.last = some last → ∃ key value, (key, value) ∈ past ∧ last = nibbles key)
    (hall : StackInput (past ++ pairs)) :
    ∃ st' T', Trie.updateAll keccak st pairs = .ok st' ∧ Stacks keccak st' T' ∧ TrieOk T' ∧
      HasEntries T' (past ++ pairs) := by
  induction pairs generalizing past st T with
  | nil =>
    rw [append_nil]
    exact ⟨st, T, rfl, h, hT, hpast⟩
  | cons e pairs ih =>
    obtain ⟨key, value⟩ := e
    have hmem : (key, value) ∈ past ++ (key, value) :: pairs :=
      mem_append_right past mem_cons_self
    obtain ⟨hkey, hkeyok⟩ := hall.keys _ hmem
    obtain ⟨hvalue, hvaluelen⟩ := hall.values _ hmem
    have hbefore : ∀ d ∈ past, d.1 < key ∧ ¬ d.1 <+: key := fun d hd =>
      ⟨(pairwise_append.mp hall.ascending).2.2 d hd _ mem_cons_self,
        (pairwise_append.mp hall.prefixFree).2.2 d hd _ mem_cons_self⟩
    obtain ⟨st₁, hupdate, hlast₁, hst₁⟩ := h.update hT hkey hvalue fun last hsome => by
      obtain ⟨key', value', hpast', rfl⟩ := hlast last hsome
      rw [nibbles_lt_iff, nibbles_prefix_iff]
      exact hbefore _ hpast'
    have hnew : ∀ d ∈ past, d.1 ≠ key := by
      intro d hd heq
      have hlt := (hbefore d hd).1
      rw [heq] at hlt
      exact List.lt_irrefl key hlt
    have hentries := hpast.insert hT hnew value
    have hassoc : past ++ (key, value) :: pairs = past ++ [(key, value)] ++ pairs := by
      rw [append_assoc, singleton_append]
    rw [hassoc] at hall ⊢
    obtain ⟨st', T', hrest, hst'⟩ := ih hst₁ (hT.insert hkeyok ⟨hvalue, hvaluelen⟩) hentries
      (fun last hsome => by
        rw [hlast₁, Option.some.injEq] at hsome
        exact ⟨key, value, mem_append_right past (mem_singleton.mpr rfl), hsome.symm⟩) hall
    refine ⟨st', T', ?_, hst'⟩
    rw [Trie.updateAll, hupdate]
    exact hrest

/-- The end: the root hash, and every standalone node reported once. -/
theorem Stacks.hash {st : StackTrie} {T : TrieTree} (h : Stacks keccak st T) {N : Nat}
    (hT : TrieShape N T) :
    (st.Hash keccak).2 = treeHash keccak T ∧ ((st.Hash keccak).1.reports.map Prod.fst).Nodup ∧
      ∀ x, x ∈ (st.Hash keccak).1.reports ↔
        ∃ u, StoreOf keccak T x.1 u ∧ x.2 = entryOf keccak u := by
  rcases h.rep with ⟨-, rfl, -⟩ | ⟨last, -, hrep, hopen⟩
  · exact absurd rfl hT.ne_nil
  have hhashed : ∀ val, st.root ≠ .hashed val := by
    intro val hroot
    rw [hroot] at hopen
    exact hopen
  obtain ⟨hval, hreported⟩ := hrep.hash_spec (p := []) hT (.inr hhashed)
  have hall := h.reported.trans hreported
  refine ⟨?_, hall.nodup, fun x => ?_⟩
  · rw [StackTrie.Hash, treeHash_of_shape hT]
    simp only [hval, if_true]
    exact bytesToHash_val _
  · rw [StackTrie.Hash, hall.mem]
    constructor
    · rintro ⟨r, u, hu, hs, -, -, rfl⟩
      exact ⟨u, ⟨hu, hs⟩, rfl⟩
    · rintro ⟨u, ⟨hu, hs⟩, hx⟩
      exact ⟨x.1, u, hu, hs, trivial, id, Prod.ext rfl hx⟩

/-- What a commit from the empty trie writes. -/
theorem mem_committedBy_of_empty {nodes : Option NodeSet}
    (hdiff : Diff keccak .nil T (entriesOf nodes)) (x : Report) :
    x ∈ committedBy nodes ↔ ∃ u, StoreOf keccak T x.1 u ∧ x.2 = entryOf keccak u := by
  constructor
  · intro hx
    obtain ⟨u, hu, hhash, hblob⟩ := mem_committedBy hdiff hx
    exact ⟨u, hu, Prod.ext hhash hblob⟩
  · rintro ⟨u, hu, hx⟩
    rcases hdiff.written hu with hlive | ⟨hold, -⟩
    · rw [committedBy, Set.mem_ofPred_eq, hx]
      exact ⟨hlive, enc_ne_nil (isNode_of_nodeAt hu.1)⟩
    · cases hold.1

theorem hasEntries_nil : HasEntries .nil [] := fun key value => by simp

/-- A stack trie and a trie with the same entries stand for the same tree. -/
theorem stacks_and_opened {pairs : List (Bytes × Bytes)} (hpairs : StackInput pairs) {ops : List Op}
    (hops : ∀ op ∈ ops, InMemory op)
    (hsame : ∀ key value, lastValue ops key = some value ↔ (key, value) ∈ pairs) :
    ∃ st s as T, updateAll keccak NewStackTrie pairs = .ok st ∧
      run keccak newSession ops = .ok (s, as) ∧ Stacks keccak st T ∧
      Opened keccak .nil s.trie T ∧ HasEntries T pairs := by
  obtain ⟨st, T, hupdate, hst, hT, hentries⟩ :=
    (@stacks_new keccak).updateAll pairs trieOk_nil hasEntries_nil (fun _ h => by cases h) hpairs
  obtain ⟨s, as, T', hrun, hopen, hlookup⟩ :=
    Opened.run ops hops (@sessionOk_new keccak).opened (@sessionOk_new keccak).lookup
  rw [foldl_after_lastValue, nil_append] at hlookup
  -- both tries have the entries of the list
  have hTT : T' = T := by
    refine TrieOf.unique (m := lastValue ops) ⟨hT, fun key => ?_⟩ ⟨hopen.ok, hlookup⟩
    apply Option.ext
    intro value
    rw [hentries, hsame, nil_append]
  subst hTT
  exact ⟨st, s, as, T', hupdate, hrun, hst, hopen, hentries⟩

/-- **The stack trie agrees with the trie.** Give a stack trie entries in ascending order
of their keys, no key a prefix of another. Every update succeeds; the hash is the root
hash of a trie that any calls have given the same entries; and what is reported, each
path once, are the nodes that committing that trie writes. -/
theorem stackTrie_agrees (pairs : List (Bytes × Bytes)) (hne : pairs ≠ [])
    (hpairs : StackInput pairs) (ops : List Op) (hops : ∀ op ∈ ops, InMemory op)
    (hsame : ∀ key value, lastValue ops key = some value ↔ (key, value) ∈ pairs) :
    ∃ st s as, updateAll keccak NewStackTrie pairs = .ok st ∧
      run keccak newSession ops = .ok (s, as) ∧
      (st.Hash keccak).2 = (rootHash keccak s.trie).2 ∧
      ((st.Hash keccak).1.reports.map Prod.fst).Nodup ∧
      ∀ schedule : Schedule, schedule.Ok → ∀ collectLeaf, ∃ t' root nodes,
        commitWith keccak schedule s.trie collectLeaf = (t', some (root, nodes)) ∧
        ∀ x, x ∈ (st.Hash keccak).1.reports ↔ x ∈ committedBy nodes := by
  obtain ⟨st, s, as, T, hupdate, hrun, hst, hopen, hentries⟩ :=
    @stacks_and_opened keccak _ hpairs _ hops hsame
  have hshape : TrieShape maxKey T := by
    refine hopen.ok.fits.resolve_left fun hnil => ?_
    obtain ⟨e, pairs, rfl⟩ := exists_cons_of_ne_nil hne
    have hlook := (hentries e.1 e.2).mpr mem_cons_self
    rw [hnil] at hlook
    cases hlook
  obtain ⟨hhash, hnodup, hmem⟩ := hst.hash hshape
  obtain ⟨t, hroot, -⟩ := hopen.rootHash
  refine ⟨st, s, as, hupdate, hrun, ?_, hnodup, fun schedule hschedule leaf => ?_⟩
  · rw [hroot, hhash]
  · obtain ⟨t', nodes, hcommit, hdiff⟩ := hopen.commitWith hschedule leaf
    refine ⟨t', _, nodes, hcommit, fun x => ?_⟩
    rw [hmem, mem_committedBy_of_empty hdiff]

/-- Three entries: two that share a branch below an extension, and one beside it. -/
def forkPairs : List (Bytes × Bytes) :=
  [([0x12, 0x30], [0x01]), ([0x12, 0x31], [0x02]), ([0x20], [0x03])]

/-- A history with these entries, in another order. -/
def forkHistory : List Op :=
  [.update [0x20] [0x03], .update [0x77] [0x05], .update [0x12, 0x31] [0x02], .delete [0x77],
    .update [0x12, 0x30] [0x01]]

theorem stackInput_forkPairs : StackInput forkPairs :=
  ⟨by decide, by decide, by decide, by decide⟩

theorem stackTrie_agrees_forkPairs :
    ∃ st s as, updateAll Keccak.keccak256 NewStackTrie forkPairs = .ok st ∧
      run Keccak.keccak256 newSession forkHistory = .ok (s, as) ∧
      (st.Hash Keccak.keccak256).2 = (rootHash Keccak.keccak256 s.trie).2 := by
  have hsame : ∀ key value, lastValue forkHistory key = some value ↔ (key, value) ∈ forkPairs := by
    intro key value
    by_cases h₁ : [0x12, 0x30] = key
    · subst h₁
      simp [lastValue, forkHistory, forkPairs, writes, eq_comm]
    by_cases h₂ : [0x12, 0x31] = key
    · subst h₂
      simp [lastValue, forkHistory, forkPairs, writes, eq_comm]
    · by_cases h₃ : [0x20] = key
      · subst h₃
        simp [lastValue, forkHistory, forkPairs, writes, eq_comm]
      · by_cases h₄ : [0x77] = key
        · subst h₄
          simp [lastValue, forkHistory, forkPairs, writes]
        · simp [lastValue, forkHistory, forkPairs, writes, h₁, h₂, h₃, h₄,
            Ne.symm h₁, Ne.symm h₂, Ne.symm h₃]
  obtain ⟨st, s, as, hupdate, hrun, hhash, -⟩ :=
    stackTrie_agrees forkPairs (by decide) stackInput_forkPairs forkHistory (by decide) hsame
  exact ⟨st, s, as, hupdate, hrun, hhash⟩

end Stacked

end GoEthereum.Trie

import GoEthereum.Trie.Descent

/-!
# Deletions

On a node that stands for a tree, `delete` leads to a node for the tree without the
entry, unless the reader does not have a node it needs. A branch with one occupied
slot left is contracted to a short node, and resolving what is left decides whether
two short nodes are merged.
-/

namespace GoEthereum.Trie

open Radix (Tree Terminated Word)
open Radix.Tree List Function

variable {ns : Nibble → Node} {ts : Nibble → TrieTree} {n : Node} {p : Path}

/-- A node in memory. -/
def Loaded (n : Node) : Prop := ∀ h, n ≠ .hash h

theorem loaded_firstNode (keccak : Bytes → Hash) (hash : Option Hash) (t : TrieTree) :
    Loaded (firstNode keccak hash t) := by
  cases t <;> rintro _ ⟨⟩

section Delete

variable {keccak : Bytes → Hash} {S : Path → TrieTree → Prop} {r : TrieReader} {N : Nat}

/-! ## Contracting a branch -/

/-- The occupied slots of a branch are those of its tree. -/
theorem occupied_eq_singleton (h : ∀ i, Rep keccak S (p ++ [i]) (ns i) (ts i)) (j : Nibble) :
    occupied ns = [j] ↔ Sole ts j := by
  have hmem : ∀ i, i ∈ occupied ns ↔ ts i ≠ .nil := by
    intro i
    rw [occupied, mem_filter, (h i).isNil, Ne, ← isNil_iff]
    simp [slots]
  have hnodup : (occupied ns).Nodup := (nodup_finRange 17).filter _
  constructor
  · intro heq
    rw [heq] at hmem
    refine ⟨(hmem j).mp (mem_singleton.mpr rfl), fun i hi => ?_⟩
    by_contra hne
    exact hi (mem_singleton.mp ((hmem i).mpr hne))
  · rintro ⟨hj, hrest⟩
    have hperm : (occupied ns).Perm [j] := by
      rw [perm_ext_iff_of_nodup hnodup (nodup_singleton j)]
      intro i
      rw [hmem i, mem_singleton]
      constructor
      · intro hi
        by_contra hij
        exact hi (hrest i hij)
      · rintro rfl
        exact hj
    exact perm_singleton.mp hperm

/-- A branch with one occupied slot as a short node. -/
theorem sim_contract {f : NodeFlag} (h : ∀ i, Rep keccak S (p ++ [i]) (ns i) (ts i)) {j : Nibble}
    (hj : Sole ts j) (tr : Tracer) :
    Sim keccak S p (.full ns f) (.full ts) tr (.short [j] (ns j) newFlag)
      (.short [j] (ts j)) tr where
  rep := (h j).short_new
  moves := by
    refine Moves.of_iff (fun r => ?_) rfl rfl
    rw [hasNode_short, hasNode_full]
    refine or_congr Iff.rfl ⟨?_, ?_⟩
    · rintro ⟨r', rfl, hr'⟩
      exact ⟨j, r', rfl, hr'⟩
    · rintro ⟨a, r', rfl, hr'⟩
      by_cases ha : a = j
      · subst ha
        exact ⟨r', rfl, hr'⟩
      · rw [hj.2 a ha] at hr'
        exact absurd hr' (hasNode_nil r')
  reads := Reads.refl p tr
  covers _ hcov := by
    refine hcov.of_hashAbove rfl fun r hr => ?_
    obtain ⟨a, r', rfl, hr'⟩ := (hashAbove_full ns f r).mp hr
    by_cases ha : a = j
    · subst ha
      exact (hashAbove_short [a] (ns a) newFlag _).mpr ⟨r', rfl, hr'⟩
    have hnil : ns a = .nil := by
      have := h a
      rw [hj.2 a ha] at this
      exact this.nil_node
    rw [hnil] at hr'
    exact absurd hr' (not_hashAbove_nil r')

/-- Two short nodes as one. -/
theorem sim_merge {q k : Path} (hq : q ≠ []) (hk : k ≠ []) {c : TrieTree} {f f' : NodeFlag}
    (h : Rep keccak S (p ++ q) (.short k n f') (.short k c)) (tr : Tracer) :
    Sim keccak S p (.short q (.short k n f') f) (.short q (.short k c)) tr
      (.short (q ++ k) n newFlag) (.short (q ++ k) c) (tr.onDelete (p ++ q)) where
  rep := by
    cases h with
    | short hn _ _ =>
      rw [append_assoc] at hn
      exact hn.short_new
  moves := by
    refine moves_onDelete tr ?_ (hasNode_short_append hq hk c)
    rw [hasNode_short]
    exact .inr ⟨[], (append_nil q).symm, rfl⟩
  reads := Reads.of_accessList (by simp)
  covers _ hcov := by
    refine hcov.of_hashAbove (by simp) fun r hr => ?_
    obtain ⟨r', rfl, hr'⟩ := (hashAbove_short q _ f r).mp hr
    obtain ⟨r'', rfl, hr''⟩ := (hashAbove_short k n f' r').mp hr'
    rw [← append_assoc]
    exact (hashAbove_short (q ++ k) n newFlag _).mpr ⟨r'', rfl, hr''⟩

/-- The outcome of `delete` on a node for `t`. -/
inductive DeleteSpec (keccak : Bytes → Hash) (S : Path → TrieTree → Prop) (r : TrieReader)
    (p : Path) (n : Node) (t : TrieTree) (tr : Tracer) (k : Path) :
    Tracer × Except (Err × Node) (Bool × Node) → Prop where
  | changed {tr' : Tracer} {n' : Node} {t' : TrieTree} : t.delete k = some t' →
      Sim keccak S p n t tr n' t' tr' → Loaded n' →
      DeleteSpec keccak S r p n t tr k (tr', .ok (true, n'))
  | same {tr' : Tracer} {n' : Node} : t.delete k = none → Idle keccak S p tr tr' →
      Sim keccak S p n t tr n' t tr' →
      DeleteSpec keccak S r p n t tr k (tr', .ok (false, n'))
  | lacks {tr' : Tracer} {e : Err} {left : Node} : Lacks keccak S r e →
      DeleteSpec keccak S r p n t tr k (tr', .error (e, left))

/-- The outcome of `reduce` on a branch for `ts`. -/
inductive ReduceSpec (keccak : Bytes → Hash) (S : Path → TrieTree → Prop) (r : TrieReader)
    (p : Path) (ns : Nibble → Node) (ts : Nibble → TrieTree) (tr : Tracer) :
    Tracer × Except (Err × Node) (Bool × Node) → Prop where
  | reduced {tr' : Tracer} {n' : Node} :
      Sim keccak S p (.full ns newFlag) (.full ts) tr n' (Radix.Tree.reduce ts) tr' →
      Loaded n' → ReduceSpec keccak S r p ns ts tr (tr', .ok (true, n'))
  | lacks {tr' : Tracer} {e : Err} {left : Node} : Lacks keccak S r e →
      ReduceSpec keccak S r p ns ts tr (tr', .error (e, left))

/-- Resolving a child. -/
theorem resolve_cases (hS : StoreOk keccak S) (hr : Honest keccak S r) (hN : N ≤ maxKey)
    {t : TrieTree} (h : Rep keccak S p n t) (ht : TrieShape N t) (tr : Tracer) :
    (∃ tr' m, resolve r tr n p = (tr', .ok m) ∧ Loaded m ∧ Idle keccak S p tr tr' ∧
      Sim keccak S p n t tr m t tr') ∨
    (∃ e, resolve r tr n p = (tr, .error e) ∧ Lacks keccak S r e) := by
  cases h with
  | nil => exact absurd rfl ht.ne_nil
  | value p v => cases ht
  | hash hnode hlen hs =>
    rcases resolveAndTrack_cases hr hN ht hs tr with ⟨-, hok⟩ | ⟨e, he, herr⟩
    · exact .inl ⟨_, _, hok, loaded_firstNode _ _ _, idle_onRead keccak hs tr,
        sim_resolve hS ht hs tr⟩
    · exact .inr ⟨e, herr, he⟩
  | short hc hf hset =>
    exact .inl ⟨tr, _, rfl, (by rintro _ ⟨⟩), Idle.refl p tr,
      Sim.idle (.short hc hf hset) (Idle.refl p tr)⟩
  | full hns hf hset =>
    exact .inl ⟨tr, _, rfl, (by rintro _ ⟨⟩), Idle.refl p tr,
      Sim.idle (.full hns hf hset) (Idle.refl p tr)⟩

theorem reduce_spec (hS : StoreOk keccak S) (hr : Honest keccak S r) (hN : N ≤ maxKey)
    (h : ∀ i, Rep keccak S (p ++ [i]) (ns i) (ts i)) (hfits : ∀ i, i ≠ term → TrieFits N (ts i))
    (hval : ∀ k c, ts term ≠ .short k c) (tr : Tracer) :
    ReduceSpec keccak S r p ns ts tr (reduce r tr ns p) := by
  by_cases hsole : ∃ j, Sole ts j
  swap
  · -- two entries are left, or none
    have hocc : ∀ j, occupied ns ≠ [j] := fun j hj =>
      hsole ⟨j, (occupied_eq_singleton h j).mp hj⟩
    have hred : reduce r tr ns p = (tr, .ok (true, .full ns newFlag)) := by
      rw [reduce]
      split
      · rename_i pos hpos
        exact absurd hpos (hocc pos)
      · rfl
    rw [hred]
    refine .reduced ?_ (by rintro _ ⟨⟩)
    rw [reduce_of_not_sole fun j hj => hsole ⟨j, hj⟩]
    exact Sim.idle (Rep.full_new h) (Idle.refl p tr)
  obtain ⟨j, hj⟩ := hsole
  have hocc := (occupied_eq_singleton h j).mpr hj
  have hcontract := sim_contract (f := newFlag) h hj tr
  rw [reduce, hocc]
  by_cases hterm : j = term
  · -- only the value of the branch is left
    subst hterm
    simp only [if_true]
    refine .reduced ?_ (by rintro _ ⟨⟩)
    rw [reduce_of_sole hj]
    cases hts : ts term with
    | short k c => exact absurd hts (hval k c)
    | nil => rw [hts] at hcontract; exact hcontract
    | value v => rw [hts] at hcontract; exact hcontract
    | full us => rw [hts] at hcontract; exact hcontract
  simp only [if_neg hterm]
  have hshape : TrieShape N (ts j) := (hfits j hterm).resolve_left hj.1
  rcases resolve_cases hS hr hN (h j) hshape tr with ⟨tr', m, hm, hload, hidle, hsim⟩ | ⟨e, he, hl⟩
  swap
  · simp only [he]
    exact .lacks hl
  simp only [hm]
  cases hts : ts j with
  | nil => exact absurd hts hj.1
  | value v =>
    rw [hts] at hshape
    cases hshape
  | full us =>
    have hmrep := hsim.rep
    rw [hts] at hmrep hcontract
    cases hmrep with
    | hash => exact absurd rfl (hload _)
    | full hns hf hset =>
      refine .reduced ?_ (by rintro _ ⟨⟩)
      rw [reduce_of_sole hj, hts]
      exact hcontract.trans (Sim.idle hcontract.rep hidle.mono)
  | short k c =>
    have hk : k ≠ [] := by
      rw [hts] at hshape
      exact hshape.word.2
    have hchild := hsim.short (f := newFlag) (cons_ne_nil j []) hsim.rep.short_new
    rw [hts] at hsim hcontract hchild
    have hmrep := hsim.rep
    cases hmrep with
    | hash => exact absurd rfl (hload _)
    | short hc hf hset =>
      refine .reduced ?_ (by rintro _ ⟨⟩)
      rw [reduce_of_sole hj, hts]
      exact (hcontract.trans hchild).trans (sim_merge (cons_ne_nil j []) hk hsim.rep tr')

theorem delete_short_parts (fuel : Nat) (tr : Tracer) {x y : Nibble} (hxy : x ≠ y)
    (p q k key : Path) (val : Node) (f : NodeFlag) :
    delete r (fuel + 1) tr (.short (q ++ y :: k) val f) p (q ++ x :: key) =
      (tr, .ok (false, .short (q ++ y :: k) val f)) := by
  have hlt : q.length < (q ++ y :: k).length := by
    rw [length_append, length_cons]
    omega
  rw [delete]
  simp only [Radix.prefixLen_fork hxy, if_pos hlt]

theorem delete_short_whole (fuel : Nat) (tr : Tracer) (p q : Path) (val : Node) (f : NodeFlag) :
    delete r (fuel + 1) tr (.short q val f) p q = (tr.onDelete p, .ok (true, .nil)) := by
  rw [delete]
  simp only [Radix.prefixLen_self, lt_irrefl, if_false, if_true]

theorem delete_short_below (fuel : Nat) (tr : Tracer) (p q : Path) {k : Path} (hk : k ≠ [])
    (val : Node) (f : NodeFlag) :
    delete r (fuel + 1) tr (.short q val f) p (q ++ k) = match delete r fuel tr val (p ++ q) k with
      | (tr, .error (e, val)) => (tr, .error (e, .short q val f))
      | (tr, .ok (dirty, child)) =>
        if dirty then
          match child with
          | .short k' val' _ =>
            (tr.onDelete (p ++ q), .ok (true, .short (q ++ k') val' newFlag))
          | child => (tr, .ok (true, .short q child newFlag))
        else (tr, .ok (false, .short q val f)) := by
  have hlen : q.length ≠ (q ++ k).length := by
    rw [length_append]
    have := length_pos_iff.mpr hk
    omega
  rw [delete]
  simp only [Radix.prefixLen_append_self, lt_irrefl, if_false, if_neg hlen, take_left,
    drop_left] <;> rfl

theorem sim_nil {t : TrieTree} {tr tr' : Tracer} (hn : ∀ r, ¬ HashAbove n r)
    (hm : Moves p t.HasNode (Radix.Tree.nil : TrieTree).HasNode tr tr')
    (htr : tr'.accessList = tr.accessList) : Sim keccak S p n t tr .nil .nil tr' where
  rep := .nil p
  moves := hm
  reads := Reads.of_accessList htr
  covers _ hcov := hcov.of_hashAbove htr fun r hr => absurd hr (hn r)

theorem fits_update_nil (h : TrieShape N (.full ts)) {a i : Nibble} (hi : i ≠ term) :
    TrieFits N (Function.update ts a .nil i) := by
  by_cases hia : i = a
  · subst hia
    rw [update_self]
    exact fits_nil N
  · rw [update_of_ne hia]
    exact (h.slot hi).mono (Nat.sub_le N 1)

theorem value_update_nil (h : TrieShape N (.full ts)) {a : Nibble} (k : Path) (c : TrieTree) :
    Function.update ts a .nil term ≠ .short k c := by
  by_cases ha : term = a
  · subst ha
    rw [update_self]
    exact fun heq => by cases heq
  rw [update_of_ne ha]
  rcases h.valueSlot with hnil | ⟨v, -, hv⟩
  · rw [hnil]
    exact fun heq => by cases heq
  · rw [hv]
    exact fun heq => by cases heq

theorem delete_spec (hS : StoreOk keccak S) (hr : Honest keccak S r) (hN : N ≤ maxKey) (fuel : Nat)
    {n : Node} {t : TrieTree} {p k : Path} (tr : Tracer) (hrep : Rep keccak S p n t)
    (hslot : Slot N t k) (hfuel : stepsFor n k ≤ fuel) :
    DeleteSpec keccak S r p n t tr k (delete r fuel tr n p k) := by
  refine descend hS (motive := fun fuel p n t k => ∀ tr, DeleteSpec keccak S r p n t tr k
    (delete r fuel tr n p k)) ?nil ?value ?leave ?short ?full ?hash fuel hrep hslot hfuel tr
  case nil =>
    exact fun fuel p k tr => .same rfl (Idle.refl p tr) (Sim.idle (.nil p) (Idle.refl p tr))
  case value =>
    intro fuel p w tr
    refine .changed rfl (sim_nil (not_hashAbove_value w) ?_ rfl) (by rintro _ ⟨⟩)
    exact Moves.of_iff (fun r => iff_of_false (hasNode_nil r) (hasNode_value w r)) rfl rfl
  case leave =>
    intro fuel p q x key y k m c f hxy hrep tr
    rw [delete_short_parts (fuel + 1) tr hxy]
    exact .same (delete_short_fork hxy q key k c)
      (Idle.refl p tr) (Sim.idle hrep (Idle.refl p tr))
  case short =>
    intro fuel p q m c f k hrep hshape hk ih tr
    have hq := hshape.word.2
    by_cases hk' : k = []
    · -- the leaf goes
      subst hk'
      rw [append_nil] at hk ⊢
      rw [delete_short_whole]
      cases hshape with
      | ext _ hp _ _ => exact absurd hk.mem hp
      | @leaf _ _ v _ _ _ =>
        have hm : m = .value v := by
          cases hrep with
          | short hc => exact hc.value_node
        subst hm
        refine .changed (delete_short_self q _) (sim_nil ?_ ?_ (by simp)) (by rintro _ ⟨⟩)
        · intro r' hr'
          obtain ⟨r'', -, hr''⟩ := (hashAbove_short q _ f r').mp hr'
          exact not_hashAbove_value v r'' hr''
        · have h := @moves_onDelete p [] (Radix.Tree.short q (Radix.Tree.value v)).HasNode
            (Radix.Tree.nil : TrieTree).HasNode tr rfl ?_
          · rwa [append_nil] at h
          · intro r'
            refine iff_of_false (hasNode_nil r') ?_
            rintro ⟨h, hne⟩
            rcases (hasNode_short q _ r').mp h with rfl | ⟨r'', -, h⟩
            · exact hne rfl
            · exact hasNode_value v r'' h
    specialize ih tr
    rw [delete_short_below fuel tr p q hk']
    generalize delete r _ _ _ _ _ = out at ih ⊢
    cases ih with
    | lacks he => exact .lacks he
    | same hnone hidle hsim =>
      refine .same ?_ hidle.mono (Sim.idle hrep hidle.mono)
      rw [delete_short_append hk', hnone]
      rfl
    | @changed tr' n' t' hdel hsim hload =>
      have hdel' : (Radix.Tree.short q c).delete (q ++ k) = some (merge q t') := by
        rw [delete_short_append hk', hdel]
        rfl
      cases hshape with
      | leaf hp _ _ => exact absurd (hp.eq_of_append hk) hk'
      | ext _ _ _ hts =>
        have hchild := hsim.short (f := f) hq hsim.rep.short_new
        have hkey := ((Radix.terminated_append_iff hk').mp hk).2
        have hfits := fits_delete (.inr hts) hkey hdel
        have hrep' := hsim.rep
        cases hrep' with
        | nil => exact absurd rfl (hfits.2 rfl)
        | value _ v =>
          rcases hfits.1 with h | h
          · cases h
          · cases h
        | hash => exact absurd rfl (hload _)
        | full hns' hf' hset' => exact .changed hdel' hchild (by rintro _ ⟨⟩)
        | short hc' hf' hset' =>
          have hk2 := (hfits.1.resolve_left (by rintro ⟨⟩)).word.2
          exact .changed hdel' (hchild.trans (sim_merge hq hk2 hsim.rep tr')) (by rintro _ ⟨⟩)
  case full =>
    intro fuel p ns ts f a k hrep hshape hk _ ih tr
    specialize ih tr
    rw [delete]
    generalize delete r _ _ _ _ _ = out at ih ⊢
    cases ih with
    | lacks he => exact .lacks he
    | same hnone hidle hsim =>
      refine .same ?_ hidle.mono (Sim.idle hrep hidle.mono)
      rw [delete_full_cons, hnone]
      rfl
    | @changed tr' n' t' hdel hsim hload =>
      have hns : ∀ i, Rep keccak S (p ++ [i]) (Function.update ns a n' i)
          (Function.update ts a t' i) := by
        cases hrep with
        | full hns => exact rep_update hns hsim.rep
      have hchild := hsim.full (f := f) (Rep.full_new hns)
      have hdel' : (Radix.Tree.full ts).delete (a :: k) = some
          (if t'.isNil then Radix.Tree.reduce (Function.update ts a .nil)
            else .full (Function.update ts a t')) := by
        rw [delete_full_cons, hdel]
        rfl
      simp only [if_true, hsim.rep.isNil]
      by_cases hnil : t'.isNil = true
      · rw [if_pos hnil] at hdel' ⊢
        rw [isNil_iff] at hnil
        subst hnil
        have hred := reduce_spec hS hr hN hns
          (fun i hi => fits_update_nil hshape hi) (value_update_nil hshape) tr'
        generalize reduce r _ _ _ = out at hred ⊢
        cases hred with
        | lacks he => exact .lacks he
        | reduced hsim' hload' => exact .changed hdel' (hchild.trans hsim') hload'
      · rw [if_neg hnil] at hdel' ⊢
        exact .changed hdel' hchild (by rintro _ ⟨⟩)
  case hash =>
    intro fuel p t k hnode hs hshape _ ih tr
    rw [delete]
    rcases resolveAndTrack_cases hr hN hshape hs tr with ⟨-, hok⟩ | ⟨e, he, herr⟩
    · have hres := sim_resolve hS hshape hs tr
      specialize ih (tr.onRead p (enc keccak t))
      simp only [hok]
      generalize delete r _ _ _ _ _ = out at ih ⊢
      cases ih with
      | lacks he => exact .lacks he
      | changed hd hsim hload => exact .changed hd (hres.trans hsim) hload
      | same hnone hidle hsim =>
        exact .same hnone ((idle_onRead keccak hs tr).trans hidle)
          (hres.trans (Sim.idle hres.rep hidle))
    · simp only [herr]
      exact .lacks he

end Delete

end GoEthereum.Trie

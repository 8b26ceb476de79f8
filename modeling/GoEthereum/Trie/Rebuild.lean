import GoEthereum.Trie.Edges

/-!
# Rebuilding a trie without a database

`VerifyRangeProof` updates a trie that has no database behind it. An update whose way is
in memory succeeds, one that meets a hash node fails and changes nothing, and neither
moves a hash node. So what the updates of a batch make of a trie is the tree with the
entries whose ways are free of hash nodes.

The end of the module is about root hashes: two tries with the same root hash are the
same, unless two of the blobs that are hashed collide.
-/

namespace GoEthereum.Trie

open Radix (Tree Terminated Word)
open Radix.Tree List Function

variable {n₀ : Node} {k : Path} {t : TrieTree}

variable {v : Bytes} {res : Except Err (Bool × Node)} {f : NodeFlag} {tr : Tracer} {T t' : TrieTree}

section Put

variable {keccak : Bytes → Hash} {S : Path → TrieTree → Prop} {r : TrieReader} {N : Nat}

theorem hashAbove_graftNode_iff (k : Path) (n : Node) (s : Path) :
    HashAbove (graftNode k n) s ↔ ∃ s', s = k ++ s' ∧ HashAbove n s' := by
  cases k with
  | nil =>
    rw [graftNode]
    simp only [nil_append, exists_eq_left']
  | cons a k => exact hashAbove_short (a :: k) n newFlag s

theorem not_hashAbove_leaf (k : Path) (v : Bytes) (s : Path) :
    ¬ HashAbove (graftNode k (.value v)) s := by
  rw [hashAbove_graftNode_iff]
  rintro ⟨s', -, h⟩
  exact not_hashAbove_value v s' h

/-- What `insert` does without a database. -/
inductive Put (n : Node) (k : Path) : Tracer × Except Err (Bool × Node) → Prop where
  | blocked {tr : Tracer} {owner hash : Hash} {p : Path} : HashAbove n k →
      Put n k (tr, .error (.missing owner hash p))
  | done {tr : Tracer} {dirty : Bool} {n' : Node} : ¬ HashAbove n k →
      (∀ s, HashAbove n' s ↔ HashAbove n s) → Put n k (tr, .ok (dirty, n'))

theorem put_short {q : Path} {m : Node} (h : Put m k (tr, res)) :
    Put (.short q m f) (q ++ k) (match (tr, res) with
      | (tr, .error e) => (tr, .error e)
      | (tr, .ok (dirty, nn)) =>
        if dirty then (tr, .ok (true, .short q nn newFlag))
        else (tr, .ok (false, .short q m f))) := by
  have hiff : HashAbove (.short q m f) (q ++ k) ↔ HashAbove m k := by
    rw [hashAbove_short]
    constructor
    · rintro ⟨s, heq, hs⟩
      rwa [append_cancel_left heq]
    · exact fun hs => ⟨k, rfl, hs⟩
  cases h with
  | blocked h => exact .blocked (hiff.mpr h)
  | @done _ dirty n' hclear habove =>
    cases dirty with
    | false => exact .done (fun h => hclear (hiff.mp h)) fun _ => Iff.rfl
    | true =>
      refine .done (fun h => hclear (hiff.mp h)) fun s => ?_
      rw [hashAbove_short, hashAbove_short]
      simp only [habove]

theorem put_full {a : Nibble} {ns : Nibble → Node} (h : Put (ns a) k (tr, res)) :
    Put (.full ns f) (a :: k) (match (tr, res) with
      | (tr, .error e) => (tr, .error e)
      | (tr, .ok (dirty, nn)) =>
        if dirty then (tr, .ok (true, .full (Function.update ns a nn) newFlag))
        else (tr, .ok (false, .full ns f))) := by
  cases h with
  | blocked h => exact .blocked h
  | @done _ dirty n' hclear habove =>
    cases dirty with
    | false => exact .done hclear fun _ => Iff.rfl
    | true =>
      refine .done hclear fun s => ?_
      cases s with
      | nil => exact Iff.rfl
      | cons b s =>
        rw [HashAbove, HashAbove]
        by_cases hb : b = a
        · subst hb
          rw [update_self]
          exact habove s
        · rw [update_of_ne hb]

/-- The hash nodes of a short node that is split. -/
theorem hashAbove_fork {x y : Nibble} (hxy : x ≠ y) (q k key : Path) (val : Node) (f : NodeFlag)
    (v : Bytes) (s : Path) :
    HashAbove (graftNode q (.full (Function.update
        (Function.update (fun _ => .nil) y (graftNode k val)) x (graftNode key (.value v)))
        newFlag)) s ↔ HashAbove (.short (q ++ y :: k) val f) s := by
  rw [hashAbove_graftNode_iff, hashAbove_short]
  constructor
  · rintro ⟨s', rfl, hs'⟩
    obtain ⟨b, s'', rfl, hs''⟩ := (hashAbove_full _ _ s').mp hs'
    by_cases hbx : b = x
    · subst hbx
      rw [update_self] at hs''
      exact absurd hs'' (not_hashAbove_leaf key v s'')
    rw [update_of_ne hbx] at hs''
    by_cases hby : b = y
    · subst hby
      rw [update_self] at hs''
      obtain ⟨s₃, rfl, hs₃⟩ := (hashAbove_graftNode_iff k val s'').mp hs''
      refine ⟨s₃, ?_, hs₃⟩
      rw [append_assoc, cons_append]
    · rw [update_of_ne hby] at hs''
      exact absurd hs'' (not_hashAbove_nil s'')
  · rintro ⟨s', rfl, hs'⟩
    refine ⟨y :: (k ++ s'), by rw [append_assoc, cons_append], ?_⟩
    rw [HashAbove, update_of_ne (Ne.symm hxy), update_self]
    exact (hashAbove_graftNode_iff k val _).mpr ⟨s', rfl, hs'⟩

theorem insert_put (hS : StoreOk keccak S) (hr : r.reader = none) (v : Bytes) (fuel : Nat)
    {n : Node} {t : TrieTree} {p k : Path} (tr : Tracer) (hrep : Rep keccak S p n t)
    (hslot : Slot N t k) (hfuel : stepsFor n k ≤ fuel) :
    Put n k (insert r fuel tr n p k (.value v)) := by
  refine descend hS (motive := fun fuel p n t k => ∀ tr, Put n k
    (insert r fuel tr n p k (.value v))) ?nil ?value ?leave ?short ?full ?hash
    fuel hrep hslot hfuel tr
  case nil =>
    intro fuel p k tr
    rw [insert_nil_node]
    exact .done (not_hashAbove_nil k) fun s =>
      iff_of_false (not_hashAbove_leaf k v s) (not_hashAbove_nil s)
  case value =>
    intro fuel p w tr
    exact .done (not_hashAbove_value w []) fun s =>
      iff_of_false (not_hashAbove_value v s) (not_hashAbove_value w s)
  case leave =>
    intro fuel p q x key y k m c f hxy _ tr
    rw [insert_fork_node fuel tr hxy]
    refine .done ?_ (hashAbove_fork hxy q k key m f v)
    rw [hashAbove_short]
    rintro ⟨s, heq, -⟩
    refine Radix.not_prefix_of_fork hxy q key k ?_
    rw [heq]
    exact prefix_append _ s
  case short =>
    intro fuel p q m c f k _ hshape _ ih tr
    rw [insert_append_node fuel tr hshape.word.2]
    exact put_short (ih tr)
  case full =>
    intro fuel p ns ts f a k _ _ _ _ ih tr
    rw [insert]
    exact put_full (ih tr)
  case hash =>
    intro fuel p t k _ _ _ hk _ tr
    obtain ⟨a, k, rfl⟩ := exists_cons_of_ne_nil hk.ne_nil
    rw [insert, resolveAndTrack, TrieReader.node, hr]
    exact .blocked trivial

/-- A trie in the course of the updates, from the root `n₀` on. -/
structure Rebuilding (keccak : Bytes → Hash) (S : Path → TrieTree → Prop) (n₀ : Node) (tr : Trie)
    (T : TrieTree) : Prop where
  rep : Rep keccak S [] tr.root T
  fits : TrieFits maxKey T
  above : ∀ s, HashAbove tr.root s ↔ HashAbove n₀ s
  reader : tr.reader.reader = none
  uncommitted : tr.committed = false

theorem honest_of_reader (hr : r.reader = none) : Honest keccak S r := by
  intro p t _
  right
  rw [TrieReader.node, hr]

/-- One update: the way to its key is free of hash nodes, or nothing changes. -/
theorem Rebuilding.update (hS : StoreOk keccak S) {tr : Trie} (h : Rebuilding keccak S n₀ tr T)
    {key : Bytes} (hkey : KeyOk key) (hv : ValueOk v) :
    (HashAbove n₀ (keybytesToHex key) ∧ ∃ tr' owner hash p,
      tr.Update key v = (tr', .error (.missing owner hash p)) ∧ Rebuilding keccak S n₀ tr' T) ∨
    (¬ HashAbove n₀ (keybytesToHex key) ∧ ∃ tr', tr.Update key v = (tr', .ok ()) ∧
      Rebuilding keccak S n₀ tr' (T.insert (keybytesToHex key) v)) := by
  have hslot : Slot maxKey T (keybytesToHex key) :=
    Or.inl ⟨terminated_keybytesToHex key, h.fits⟩
  have hput := insert_put hS h.reader v (fuelFor (keybytesToHex key)) tr.tracer h.rep hslot
    (stepsFor_le _ _)
  have hspec := insert_spec hS (honest_of_reader h.reader) le_rfl v
    (fuelFor (keybytesToHex key)) tr.tracer h.rep hslot (stepsFor_le _ _)
  have hlen : v.length ≠ 0 := by
    rw [Ne, length_eq_zero_iff]
    exact hv.1
  rw [Update, if_neg (by rw [h.uncommitted]; exact Bool.false_ne_true), Trie.update, if_pos hlen,
    insertRoot]
  generalize Trie.insert tr.reader (fuelFor (keybytesToHex key)) tr.tracer tr.root []
    (keybytesToHex key) (.value v) = res at hput hspec ⊢
  cases hput with
  | blocked hhash =>
    exact .inl ⟨(h.above _).mp hhash, _, _, _, _, rfl,
      ⟨h.rep, h.fits, h.above, h.reader, h.uncommitted⟩⟩
  | @done tr' dirty n' hclear habove =>
    refine .inr ⟨fun hn₀ => hclear ((h.above _).mpr hn₀), _, rfl, ?_, ?_, ?_, h.reader,
      h.uncommitted⟩
    · cases hspec with
      | changed hsim => exact hsim.rep
      | same heq _ hsim =>
        rw [heq]
        exact hsim.rep
    · exact .inr (shape_insert h.fits (terminated_keybytesToHex key) (length_hexKey_le hkey) hv)
    · exact fun s => (habove s).trans (h.above s)

open Classical in
/-- The entries whose ways are free of hash nodes. -/
noncomputable def freeOf (n₀ : Node) (pairs : List (Bytes × Bytes)) : List (Path × Bytes) :=
  (pairs.map fun e => (keybytesToHex e.1, e.2)).filter fun e => ¬ HashAbove n₀ e.1

theorem mem_freeOf {pairs : List (Bytes × Bytes)} : (k, v) ∈ freeOf n₀ pairs ↔
      (∃ key, (key, v) ∈ pairs ∧ keybytesToHex key = k) ∧ ¬ HashAbove n₀ k := by
  classical
  rw [freeOf, mem_filter, mem_map, decide_eq_true_iff]
  constructor
  · rintro ⟨⟨⟨key, v'⟩, hmem, heq⟩, hclear⟩
    cases heq
    exact ⟨⟨key, hmem, rfl⟩, hclear⟩
  · rintro ⟨⟨key, hmem, rfl⟩, hclear⟩
    exact ⟨⟨(key, v), hmem, rfl⟩, hclear⟩

/-- The updates of a batch put the entries whose ways are free of hash nodes. -/
theorem Rebuilding.updateEach (hS : StoreOk keccak S) (pairs : List (Bytes × Bytes)) {tr : Trie}
    (h : Rebuilding keccak S n₀ tr T) (hpairs : ∀ e ∈ pairs, KeyOk e.1 ∧ ValueOk e.2) :
    ∃ tr', Trie.updateEach tr pairs = .ok tr' ∧
      Rebuilding keccak S n₀ tr' (insertAll T (freeOf n₀ pairs)) := by
  induction pairs generalizing tr T with
  | nil => exact ⟨tr, rfl, h⟩
  | cons e pairs ih =>
    obtain ⟨key, v⟩ := e
    obtain ⟨⟨hkey, hv⟩, hpairs⟩ := forall_mem_cons.mp hpairs
    rw [Trie.updateEach]
    rcases h.update hS hkey hv with ⟨hhash, tr', _, _, _, hup, h'⟩ | ⟨hclear, tr', hup, h'⟩
    · have hfree : freeOf n₀ ((key, v) :: pairs) = freeOf n₀ pairs := by
        rw [freeOf, map_cons, filter_cons_of_neg]
        · rfl
        · simpa using hhash
      rw [hup, hfree]
      exact ih h' hpairs
    · have hfree : freeOf n₀ ((key, v) :: pairs) = (keybytesToHex key, v) :: freeOf n₀ pairs := by
        rw [freeOf, map_cons, filter_cons_of_pos]
        · rfl
        · simpa using hclear
      rw [hup, hfree, insertAll_cons]
      exact ih h' hpairs

end Put

/-! ## The blobs of a trie in memory -/

section Blobs

variable {keccak : Bytes → Hash} {S : Path → TrieTree → Prop} {N : Nat}

/-- The encodings of the nodes that are in memory. -/
def nodeBlobs (keccak : Bytes → Hash) : Node → List Bytes
  | .short k val f => (hashChildren keccak (.short k val f)).encode :: nodeBlobs keccak val
  | .full children f =>
    (hashChildren keccak (.full children f)).encode ::
      slots.flatMap fun i => nodeBlobs keccak (children i)
  | _ => []

/-- A node of the tree is in memory, or it is stored. -/
theorem mem_nodeBlobs_or (hS : StoreOk keccak S) {p : Path} {n : Node} (h : Rep keccak S p n t)
    (ht : TrieShape N t) {r : Path} {u : TrieTree} (hu : t.nodeAt r = some u)
    (hlen : r = [] ∨ 32 ≤ (enc keccak u).length) :
    enc keccak u ∈ nodeBlobs keccak n ∨ S (p ++ r) u := by
  induction h generalizing r N with
  | nil => cases ht
  | value => cases ht
  | @hash p t hnode _ hs =>
    right
    by_cases hr : r = []
    · subst hr
      rw [nodeAt_self hnode] at hu
      cases hu
      rwa [append_nil]
    · exact hS.closed hs hu hr (hlen.resolve_left hr)
  | @short p k n c f hc hf hset ih =>
    cases r with
    | nil =>
      cases hu
      left
      rw [← encode_hashChildren (.short hc hf hset) (by intro h heq; cases heq) ht]
      exact mem_cons_self
    | cons a r =>
      rw [Radix.Tree.nodeAt] at hu
      split at hu
      swap
      · cases hu
      rename_i hpre
      obtain ⟨r', hr'⟩ := hpre
      rw [← hr', drop_left] at hu
      have hlen' : r' = [] ∨ 32 ≤ (enc keccak u).length :=
        Or.inr (hlen.resolve_left (cons_ne_nil a r))
      rw [← hr', ← append_assoc]
      cases ht with
      | leaf => cases hu
      | ext _ _ _ hts => exact (ih hts hu hlen').imp_left (mem_cons_of_mem _)
  | @full p ns ts f hns hf hset ih =>
    cases r with
    | nil =>
      cases hu
      left
      rw [← encode_hashChildren (.full hns hf hset) (by intro h heq; cases heq) ht]
      exact mem_cons_self
    | cons a r =>
      have hu' : (ts a).nodeAt r = some u := hu
      have hlen' : r = [] ∨ 32 ≤ (enc keccak u).length :=
        Or.inr (hlen.resolve_left (cons_ne_nil a r))
      have hassoc : p ++ a :: r = p ++ [a] ++ r := by simp
      rw [hassoc]
      cases ht with
      | full _ hts hτ =>
        by_cases hnode : a ≠ term ∧ ts a ≠ .nil
        · refine (ih a (hts a hnode.1 hnode.2) hu' hlen').imp_left fun hmem => ?_
          exact mem_cons_of_mem _ (mem_flatMap.mpr ⟨a, mem_finRange a, hmem⟩)
        exfalso
        have hleaf : ts a = .nil ∨ ∃ v, ts a = .value v := by
          by_cases ha : a = term
          · subst ha
            refine hτ.imp_right ?_
            rintro ⟨v, -, heq⟩
            exact ⟨v, heq⟩
          · exact .inl (by_contra fun hne => hnode ⟨ha, hne⟩)
        rcases hleaf with hnil | ⟨v, hval⟩
        · rw [hnil] at hu'
          cases hu'
        · rw [hval] at hu'
          cases hu'

end Blobs

/-! ## Equal root hashes -/

section Injective

variable {keccak : Bytes → Hash} {B : Set Bytes} {N : Nat}

/-- The nodes of 32 bytes have their encodings in a set. -/
def EncodedIn (keccak : Bytes → Hash) (B : Set Bytes) (t : TrieTree) : Prop :=
  ∀ r u, t.nodeAt r = some u → 32 ≤ (enc keccak u).length → enc keccak u ∈ B

/-- What may stand below a node. -/
def Kid (N : Nat) (t : TrieTree) : Prop := (∀ v, t ≠ .value v) → TrieFits N t

theorem encodedIn_of_blobs (h : blobs keccak t ⊆ B) : EncodedIn keccak B t :=
  fun r u hu hlen => h ⟨r, u, ⟨hu, .inr hlen⟩, rfl⟩

theorem EncodedIn.short {k : Path} {c : TrieTree} (h : EncodedIn keccak B (.short k c))
    (hk : k ≠ []) : EncodedIn keccak B c := by
  intro r u hu hlen
  refine h (k ++ r) u ?_ hlen
  rw [nodeAt_short_append hk, hu]

theorem EncodedIn.full {ts : Nibble → TrieTree} (h : EncodedIn keccak B (.full ts)) (a : Nibble) :
    EncodedIn keccak B (ts a) :=
  fun r u hu hlen => h (a :: r) u hu hlen

theorem kid_short {c : TrieTree} (h : TrieShape N (.short k c)) : Kid N c := by
  intro hval
  cases h with
  | leaf => exact absurd rfl (hval _)
  | ext _ _ hn hc => exact .inr (hc.mono (by omega))

theorem kid_full {ts : Nibble → TrieTree} (h : TrieShape N (.full ts)) (a : Nibble) :
    Kid N (ts a) := by
  intro hval
  cases h with
  | full hn hts hτ =>
    by_cases ha : a = term
    · subst ha
      exact .inl (hτ.resolve_right fun ⟨v, _, heq⟩ => hval v heq)
    · by_cases hnil : ts a = .nil
      · exact .inl hnil
      · exact .inr ((hts a ha hnil).mono (by omega))

theorem Kid.shape (h : Kid N t) (hnode : t.isNode = true) : TrieShape N t := by
  refine (h fun v hv => ?_).resolve_left fun hnil => ?_
  · rw [hv] at hnode
    cases hnode
  · rw [hnil] at hnode
    cases hnode

theorem refNode_ne_hash (h : ¬ apart t (enc keccak t) = true) (x : Hash) :
    refNode keccak t ≠ .hash x := by
  rw [refNode_of_not_apart h]
  cases t <;> exact fun heq => by cases heq

/-- Children with the same reference have the same first node. -/
theorem firstNode_eq_of_refNode_eq (hinj : Set.InjOn keccak B) (hN : N ≤ maxKey) (ht : Kid N t)
    (ht' : Kid N t') (hB : EncodedIn keccak B t) (hB' : EncodedIn keccak B t')
    (heq : refNode keccak t = refNode keccak t') :
    firstNode keccak none t = firstNode keccak none t' := by
  by_cases h : apart t (enc keccak t) = true
  · by_cases h' : apart t' (enc keccak t') = true
    · obtain ⟨hnode, hlen⟩ := apart_iff.mp h
      obtain ⟨hnode', hlen'⟩ := apart_iff.mp h'
      rw [refNode_of_apart h, refNode_of_apart h'] at heq
      have henc : enc keccak t = enc keccak t' :=
        hinj (hB [] t (nodeAt_self hnode) hlen) (hB' [] t' (nodeAt_self hnode') hlen')
          (Node.hash.inj heq)
      have hdec : decodeNode none (enc keccak t) = .ok (firstNode keccak none t) :=
        decodeNode_enc hN (ht.shape hnode) none
      rw [henc, decodeNode_enc hN (ht'.shape hnode') none] at hdec
      exact (Except.ok.inj hdec).symm
    · rw [refNode_of_apart h] at heq
      exact absurd heq.symm (refNode_ne_hash h' _)
  · by_cases h' : apart t' (enc keccak t') = true
    · rw [refNode_of_apart h'] at heq
      exact absurd heq (refNode_ne_hash h _)
    · rwa [refNode_of_not_apart h, refNode_of_not_apart h'] at heq

/-- The decoded first nodes of two trees differ, unless two blobs collide. -/
theorem eq_of_firstNode_eq (hinj : Set.InjOn keccak B) (hN : N ≤ maxKey) (t : TrieTree) :
    ∀ {t' : TrieTree}, Kid N t → Kid N t' → EncodedIn keccak B t → EncodedIn keccak B t' →
      firstNode keccak none t = firstNode keccak none t' → t = t' := by
  induction t with
  | nil =>
    intro t' _ _ _ _ heq
    cases t' <;> first | rfl | cases heq
  | value v =>
    intro t' _ _ _ _ heq
    cases t' <;> first | exact congrArg _ (Node.value.inj heq) | cases heq
  | short k c ih =>
    intro t' ht ht' hB hB' heq
    cases t' with
    | nil => cases heq
    | value v => cases heq
    | full ts => cases heq
    | short k' c' =>
      rw [firstNode_short, firstNode_short] at heq
      obtain ⟨rfl, hc, -⟩ := Node.short.inj heq
      have hshape := ht.shape rfl
      have hshape' := ht'.shape rfl
      have hbelow := hB.short hshape.word.2
      have hbelow' := hB'.short hshape'.word.2
      rw [ih (kid_short hshape) (kid_short hshape') hbelow hbelow'
        (firstNode_eq_of_refNode_eq hinj hN (kid_short hshape) (kid_short hshape') hbelow
          hbelow' hc)]
  | full ts ih =>
    intro t' ht ht' hB hB' heq
    cases t' with
    | nil => cases heq
    | value v => cases heq
    | short k' c' => cases heq
    | full ts' =>
      rw [firstNode_full, firstNode_full] at heq
      obtain ⟨hc, -⟩ := Node.full.inj heq
      have hshape := ht.shape rfl
      have hshape' := ht'.shape rfl
      have hts : ts = ts' := by
        funext a
        exact ih a (kid_full hshape a) (kid_full hshape' a) (hB.full a) (hB'.full a)
          (firstNode_eq_of_refNode_eq hinj hN (kid_full hshape a) (kid_full hshape' a)
            (hB.full a) (hB'.full a) (congrFun hc a))
      rw [hts]

theorem enc_ne_emptyString (hN : N ≤ maxKey) (h : TrieShape N t) :
    enc keccak t ≠ Rlp.emptyString := by
  intro henc
  have hdec : decodeNode none (enc keccak t) = .ok (firstNode keccak none t) :=
    decodeNode_enc hN h none
  rw [henc] at hdec
  cases hdec

/-- Tries with the same root hash are the same, unless two of their blobs collide. -/
theorem eq_of_treeHash_eq (hinj : Set.InjOn keccak B)
    (hempty : keccak Rlp.emptyString = emptyRootHash) (hmem : Rlp.emptyString ∈ B)
    (ht : TrieFits maxKey t) (ht' : TrieFits maxKey t') (hB : blobs keccak t ⊆ B)
    (hB' : blobs keccak t' ⊆ B) (heq : treeHash keccak t = treeHash keccak t') : t = t' := by
  have hroot : ∀ {u : TrieTree}, TrieShape maxKey u → blobs keccak u ⊆ B →
      enc keccak u ∈ B := fun hu hsub => hsub ⟨[], _, storeOf_root keccak hu, rfl⟩
  have hnot : ∀ {u : TrieTree}, TrieShape maxKey u → blobs keccak u ⊆ B →
      treeHash keccak u ≠ treeHash keccak .nil := by
    intro u hu hsub hnil
    rw [treeHash_of_shape hu] at hnil
    exact enc_ne_emptyString le_rfl hu (hinj (hroot hu hsub) hmem (hnil.trans hempty.symm))
  rcases ht with rfl | ht
  · rcases ht' with rfl | ht'
    · rfl
    · exact absurd heq.symm (hnot ht' hB')
  rcases ht' with rfl | ht'
  · exact absurd heq (hnot ht hB)
  · rw [treeHash_of_shape ht, treeHash_of_shape ht'] at heq
    have henc := hinj (hroot ht hB) (hroot ht' hB') heq
    have hdec : decodeNode none (enc keccak t) = .ok (firstNode keccak none t) :=
      decodeNode_enc le_rfl ht none
    rw [henc, decodeNode_enc le_rfl ht' none] at hdec
    exact eq_of_firstNode_eq hinj le_rfl t (fun _ => Or.inr ht) (fun _ => Or.inr ht')
      (encodedIn_of_blobs hB) (encodedIn_of_blobs hB') (Except.ok.inj hdec).symm

end Injective

end GoEthereum.Trie

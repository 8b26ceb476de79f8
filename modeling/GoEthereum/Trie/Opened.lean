import GoEthereum.Trie.Committing
import GoEthereum.Trie.Deletion

/-!
# A trie opened on a store

`Opened keccak T₀ t T` relates a trie in use to the trie `T₀` it was opened on and the
trie `T` it stands for now: a tree in which every branch has two entries and whose
keys are hex keys of byte strings. Every operation keeps the relation and changes `T`
as the operation on trees does. Opening and committing connect one such trie to the
next.
-/

namespace GoEthereum.Trie

open Radix (Tree Terminated)
open Radix.Tree

variable {key v : Bytes} {t : Trie} {T T₀ : TrieTree}

section Store

variable (keccak : Bytes → Hash)

/-- The nodes of a trie that are stored under their own hash. -/
def StoreOf (T : TrieTree) (p : Path) (t : TrieTree) : Prop :=
  T.nodeAt p = some t ∧ Standalone keccak p t

variable {keccak}

theorem storeOk_storeOf (T : TrieTree) : StoreOk keccak (StoreOf keccak T) where
  closed := by
    rintro p r t u ⟨ht, -⟩ hu - hlen
    refine ⟨?_, .inr hlen⟩
    rw [nodeAt_append ht, hu]
  standalone h := h.2

theorem exact_storeOf (T : TrieTree) : Exact (StoreOf keccak T) := by
  rintro p r t u ⟨ht, -⟩ ⟨hu, -⟩
  rw [← hu, nodeAt_append ht]

variable (keccak) in
theorem storeOf_root {N : Nat} (h : TrieShape N T) :
    StoreOf keccak T [] T := ⟨nodeAt_self h.isNode, .inl rfl⟩

end Store

/-- A trie with hex keys of byte strings, every branch of which has two entries. -/
structure TrieOk (T : TrieTree) : Prop where
  fits : TrieFits maxKey T
  minimal : Minimal T
  keys : ∀ {k : Path} {v : Bytes}, T.lookup k = some v → ∃ key, k = keybytesToHex key

theorem trieOk_nil : TrieOk .nil where
  fits := fits_nil maxKey
  minimal := trivial
  keys h := by cases h

/-- A key that fits into memory. -/
def KeyOk (key : Bytes) : Prop := key.length < 2 ^ 62

instance (key : Bytes) : Decidable (KeyOk key) :=
  inferInstanceAs (Decidable (key.length < 2 ^ 62))

theorem length_hexKey_le (h : KeyOk key) : (keybytesToHex key).length ≤ maxKey := by
  rw [length_keybytesToHex]
  simp only [KeyOk, maxKey] at *
  omega

theorem TrieOk.insert (h : TrieOk T) (hkey : KeyOk key) (hv : ValueOk v) :
    TrieOk (T.insert (keybytesToHex key) v) where
  fits := Or.inr (shape_insert h.fits (terminated_keybytesToHex key) (length_hexKey_le hkey) hv)
  minimal := minimal_insert h.fits h.minimal (terminated_keybytesToHex key) v
  keys := by
    intro k w hk
    rw [lookup_insert h.fits (terminated_keybytesToHex key)] at hk
    by_cases heq : k = keybytesToHex key
    · exact ⟨key, heq⟩
    · rw [if_neg heq] at hk
      exact h.keys hk

/-- The trie without a key. -/
noncomputable def without (T : TrieTree) (k : Path) : TrieTree := (T.delete k).getD T

theorem TrieOk.without (h : TrieOk T) (key : Bytes) : TrieOk (without T (keybytesToHex key)) := by
  have hkey := terminated_keybytesToHex key
  unfold Trie.without
  cases hd : T.delete (keybytesToHex key) with
  | none => exact h
  | some T' =>
    refine ⟨(fits_delete h.fits hkey hd).1, minimal_delete h.fits h.minimal hkey hd, fun {k v} hk => ?_⟩
    rw [Option.getD_some, lookup_delete h.fits hkey hd] at hk
    split at hk
    · cases hk
    · exact h.keys hk

theorem lookup_without (h : TrieOk T) (key key' : Bytes) :
    (without T (keybytesToHex key)).lookup (keybytesToHex key') =
      if key' = key then none else T.lookup (keybytesToHex key') := by
  have hkey := terminated_keybytesToHex key
  unfold Trie.without
  cases hd : T.delete (keybytesToHex key) with
  | none =>
    rw [Option.getD_none]
    by_cases heq : key' = key
    · subst heq
      rw [if_pos rfl]
      exact (delete_eq_none_iff h.fits hkey).mp hd
    · rw [if_neg heq]
  | some T' =>
    rw [Option.getD_some, lookup_delete h.fits hkey hd]
    simp only [keybytesToHex_injective.eq_iff]

theorem lookup_insert_key (h : TrieOk T) (key key' v : Bytes) :
    (T.insert (keybytesToHex key) v).lookup (keybytesToHex key') =
      if key' = key then some v else T.lookup (keybytesToHex key') := by
  rw [lookup_insert h.fits (terminated_keybytesToHex key)]
  simp only [keybytesToHex_injective.eq_iff]

section Opened

variable (keccak : Bytes → Hash)

/-- A trie in use: opened on `T₀`, standing for `T`. -/
structure Opened (T₀ : TrieTree) (t : Trie) (T : TrieTree) : Prop where
  rep : Rep keccak (StoreOf keccak T₀) [] t.root T
  ok : TrieOk T
  serves : Serves keccak (StoreOf keccak T₀) t.reader
  usable : t.committed = false
  tracks : ∀ q, Tracks (T₀.HasNode q) (T.HasNode q) q t.tracer
  read : ∀ {q : Path} {b : Bytes}, t.tracer.accessList q = some b → ∃ u, StoreOf keccak T₀ q u
  cover : Cover (StoreOf keccak T₀) [] t.root t.tracer

variable {keccak}

section

variable (h : Opened keccak T₀ t T)
include h

/-- An operation on the root. -/
theorem Opened.step {T' : TrieTree} {root : Node} {tracer : Tracer}
    (hsim : Sim keccak (StoreOf keccak T₀) [] t.root T t.tracer root T' tracer) (hok : TrieOk T')
    {unhashed uncommitted : Nat} :
    Opened keccak T₀ { t with root := root, tracer := tracer, unhashed := unhashed,
                              uncommitted := uncommitted } T' where
  rep := hsim.rep
  ok := hok
  serves := h.serves
  usable := h.usable
  tracks q := hsim.moves.tracks q _ (h.tracks q)
  read := by
    intro q b hb
    rcases hsim.reads q with heq | ⟨u, -, hu, -⟩
    · exact h.read (heq ▸ hb)
    · exact ⟨u, hu⟩
  cover := hsim.covers (exact_storeOf T₀) h.cover

theorem Opened.slot (key : Bytes) : Slot maxKey T (keybytesToHex key) :=
  Or.inl ⟨terminated_keybytesToHex key, h.ok.fits⟩

theorem Opened.get (key : Bytes) :
    ∃ t', t.Get key = (t', .ok (T.lookup (keybytesToHex key))) ∧ Opened keccak T₀ t' T := by
  have hspec := get_spec (storeOk_storeOf T₀) h.serves.honest le_rfl
    (fuelFor (keybytesToHex key)) t.tracer h.rep (h.slot key) (stepsFor_le _ _)
  rw [Get, if_neg (by rw [h.usable]; exact Bool.false_ne_true)]
  cases hres : Trie.get t.reader (fuelFor (keybytesToHex key)) t.tracer t.root []
      (keybytesToHex key) with
  | mk tracer res =>
    simp only [hres]
    rw [hres] at hspec
    cases hspec with
    | lacks he => exact absurd he h.serves.not_lacks
    | @found _ n' b hsim _ hb =>
      have hkeep : (if b = true then n' else t.root) = n' := by
        cases b with
        | true => rfl
        | false => exact (hb rfl).symm
      refine ⟨_, rfl, ?_⟩
      rw [hkeep]
      exact h.step hsim h.ok

theorem Opened.insertRoot (hkey : KeyOk key) (hv : ValueOk v) :
    ∃ t', t.insertRoot (keybytesToHex key) v = (t', .ok ()) ∧
      Opened keccak T₀ t' (T.insert (keybytesToHex key) v) := by
  have hspec := insert_spec (storeOk_storeOf T₀) h.serves.honest le_rfl v
    (fuelFor (keybytesToHex key)) t.tracer h.rep (h.slot key) (stepsFor_le _ _)
  rw [Trie.insertRoot]
  cases hres : Trie.insert t.reader (fuelFor (keybytesToHex key)) t.tracer t.root []
      (keybytesToHex key) (.value v) with
  | mk tracer res =>
    rw [hres] at hspec
    cases hspec with
    | lacks he => exact absurd he h.serves.not_lacks
    | changed hsim => exact ⟨_, rfl, h.step hsim (h.ok.insert hkey hv)⟩
    | same heq _ hsim =>
      rw [heq]
      exact ⟨_, rfl, h.step hsim h.ok⟩

theorem Opened.deleteRoot (key : Bytes) :
    ∃ t', t.deleteRoot (keybytesToHex key) = (t', .ok ()) ∧
      Opened keccak T₀ t' (without T (keybytesToHex key)) := by
  have hspec := delete_spec (storeOk_storeOf T₀) h.serves.honest le_rfl
    (fuelFor (keybytesToHex key)) t.tracer h.rep (h.slot key) (stepsFor_le _ _)
  have hok := h.ok.without key
  unfold Trie.without at hok ⊢
  rw [Trie.deleteRoot]
  cases hres : Trie.delete t.reader (fuelFor (keybytesToHex key)) t.tracer t.root []
      (keybytesToHex key) with
  | mk tracer res =>
    rw [hres] at hspec
    cases hspec with
    | lacks he => exact absurd he h.serves.not_lacks
    | changed hd hsim _ =>
      rw [hd, Option.getD_some] at hok ⊢
      exact ⟨_, rfl, h.step hsim hok⟩
    | same hd _ hsim =>
      rw [hd, Option.getD_none] at hok ⊢
      exact ⟨_, rfl, h.step hsim hok⟩

/-- The trie after `Update`. -/
noncomputable def updated (T : TrieTree) (key v : Bytes) : TrieTree :=
  if v = [] then without T (keybytesToHex key) else T.insert (keybytesToHex key) v

theorem Opened.update (hkey : KeyOk key) (hv : v.length < 2 ^ 63) :
    ∃ t', t.Update key v = (t', .ok ()) ∧ Opened keccak T₀ t' (updated T key v) := by
  have hcount : Opened keccak T₀
      { t with unhashed := t.unhashed + 1, uncommitted := t.uncommitted + 1 } T :=
    h.step (Sim.idle h.rep (Idle.refl [] t.tracer)) h.ok
  rw [Update, if_neg (by rw [h.usable]; exact Bool.false_ne_true), Trie.update, updated]
  by_cases hnil : v = []
  · subst hnil
    rw [if_neg (fun h => h rfl), if_pos rfl]
    exact hcount.deleteRoot key
  · have hlen : v.length ≠ 0 := fun h => hnil (List.length_eq_zero_iff.mp h)
    rw [if_pos hlen, if_neg hnil]
    exact hcount.insertRoot hkey ⟨hnil, hv⟩

theorem Opened.delete (key : Bytes) : ∃ t', t.Delete key = (t', .ok ()) ∧
      Opened keccak T₀ t' (without T (keybytesToHex key)) := by
  have hcount : Opened keccak T₀
      { t with uncommitted := t.uncommitted + 1, unhashed := t.unhashed + 1 } T :=
    h.step (Sim.idle h.rep (Idle.refl [] t.tracer)) h.ok
  rw [Delete, if_neg (by rw [h.usable]; exact Bool.false_ne_true)]
  exact hcount.deleteRoot key

/-- Hashing changes caches only. -/
theorem Opened.rootHash :
    ∃ t', Trie.rootHash keccak t = (t', treeHash keccak T) ∧ Opened keccak T₀ t' T ∧
      Cached t'.root := by
  obtain ⟨root, heq, hrep, habove, hcached⟩ := rootHash_spec h.rep h.ok.fits
  refine ⟨_, heq, ⟨hrep, h.ok, h.serves, h.usable, h.tracks, h.read, ?_⟩, hcached⟩
  exact h.cover.of_hashAbove rfl fun r => (habove r).mpr

end

theorem copyNode_eq (n : Node) : copyNode n = n := by
  induction n with
  | nil => rfl
  | value v => rfl
  | hash h => rfl
  | short k n f ih => rw [copyNode, ih]
  | full ns f ih =>
    rw [copyNode]
    congr 1
    funext i
    exact ih i

theorem copy_eq (t : Trie) : t.copy = t := by
  rw [copy, copyNode_eq]

/-! ## Opening -/

/-- `New` on the root of a trie, with a reader that has its nodes. -/
theorem opened_new (h : TrieOk T) {id : ID} {db : Hash → Option NodeReader} {reader : TrieReader}
    (hreader : newTrieReader id.stateRoot id.owner db = .ok reader)
    (hroot : id.root = treeHash keccak T)
    (hroot0 : T ≠ .nil → id.root ≠ zeroHash ∧ id.root ≠ emptyRootHash)
    (hserves : Serves keccak (StoreOf keccak T) reader) :
    ∃ t, New id db = .ok t ∧ Opened keccak T t T := by
  rw [New, hreader]
  have hfits := h.fits
  rcases hfits with rfl | hshape
  · have hempty : ¬ (id.root ≠ zeroHash ∧ id.root ≠ emptyRootHash) := by
      rw [hroot]
      exact fun hne => hne.2 rfl
    simp only [if_neg hempty]
    refine ⟨_, rfl, .nil [], h, hserves, rfl, fun q => ?_, (fun h => by cases h), ?_⟩
    · simp [Tracks, newTracer]
    · rintro r u ⟨hu, -⟩
      cases hu
  · have hroot' : id.root = keccak (enc keccak T) := by
      rw [hroot, treeHash_of_shape hshape]
    have hstored := storeOf_root keccak hshape
    have hsim := sim_resolve (storeOk_storeOf T) hshape hstored newTracer
    have hresolve : resolveAndTrack reader newTracer id.root [] =
        (newTracer.onRead [] (enc keccak T),
          .ok (firstNode keccak (some (keccak (enc keccak T))) T)) := by
      rcases resolveAndTrack_cases hserves.honest le_rfl hshape hstored newTracer with
        ⟨-, hok⟩ | ⟨e, he, -⟩
      · rw [hroot', hok]
      · exact absurd he hserves.not_lacks
    simp only [if_pos (hroot0 hshape.ne_nil), hresolve]
    refine ⟨_, rfl, hsim.rep, h, hserves, rfl, fun q => ?_, ?_, ?_⟩
    · simp [Tracks, Tracer.onRead, newTracer]
    · intro q b hb
      rcases hsim.reads q with heq | ⟨u, -, hu, -⟩
      · rw [heq] at hb
        cases hb
      · exact ⟨u, hu⟩
    · exact hsim.covers (exact_storeOf T) fun r u _ => Or.inr trivial

/-! ## Committing -/

/-- What a node set holds for a path; no set holds nothing. -/
def entriesOf (nodes : Option NodeSet) (q : Path) : Option SetNode :=
  match nodes with
  | none => none
  | some set => set.nodes q

variable (keccak) in
/-- The entries of a node set as the difference between two tries: every standalone node
of `T` is written or was there before, the other standalone nodes of `T₀` are deleted,
and nothing else is written. -/
structure Diff (T₀ T : TrieTree) (e : Path → Option SetNode) : Prop where
  written : ∀ {q : Path} {u : TrieTree}, StoreOf keccak T q u →
    e q = some (live keccak u) ∨ (StoreOf keccak T₀ q u ∧ e q = none)
  dropped : ∀ {q : Path}, (∀ u, ¬ StoreOf keccak T q u) → ∀ u, StoreOf keccak T₀ q u →
    e q = some newDeleted
  quiet : ∀ {q : Path}, (∀ u, ¬ StoreOf keccak T q u) → e q = none ∨ e q = some newDeleted

/-- A stored node that is behind a hash node is still in the trie. -/
theorem nodeAt_of_hashAbove {S : Path → TrieTree → Prop} (hex : Exact S) {p : Path} {n : Node}
    (h : Rep keccak S p n T) {N : Nat} (hT : TrieFits N T) {r : Path} {u : TrieTree}
    (hu : S (p ++ r) u) (habove : HashAbove n r) : T.nodeAt r = some u := by
  induction h generalizing r N with
  | nil => exact absurd habove (not_hashAbove_nil r)
  | value p v => exact absurd habove (not_hashAbove_value v r)
  | hash hnode hlen hs => exact hex hs hu
  | @short p k n t f hn hf hset ih =>
    obtain ⟨r', rfl, hbelow⟩ := (hashAbove_short k n f r).mp habove
    have hshape := hT.resolve_left fun h => by cases h
    rw [nodeAt_short_append hshape.word.2]
    rw [← List.append_assoc] at hu
    cases hshape with
    | leaf =>
      rw [hn.value_node] at hbelow
      exact absurd hbelow (not_hashAbove_value _ r')
    | ext _ _ _ hts => exact ih (.inr hts) hu hbelow
  | @full p ns ts f hns hf hset ih =>
    obtain ⟨i, r', rfl, hbelow⟩ := (hashAbove_full ns f r).mp habove
    have hshape := hT.resolve_left fun h => by cases h
    have hu' : S (p ++ [i] ++ r') u := by
      rw [List.append_assoc]
      exact hu
    by_cases hi : i = term
    · subst hi
      have hslot := hns term
      rcases hshape.valueSlot with hnil | ⟨v, -, hv⟩
      · rw [hnil] at hslot
        rw [hslot.nil_node] at hbelow
        exact absurd hbelow (not_hashAbove_nil r')
      · rw [hv] at hslot
        rw [hslot.value_node] at hbelow
        exact absurd hbelow (not_hashAbove_value v r')
    · exact ih i (hshape.slot hi) hu' hbelow

/-- A node of the opened trie that is gone, or embedded now, has been read. -/
theorem Opened.read_of_dropped (h : Opened keccak T₀ t T) {q : Path} {u : TrieTree}
    (hu : StoreOf keccak T₀ q u) (hgone : ¬ StoreOf keccak T q u) :
    (t.tracer.accessList q).isSome = true := by
  rcases h.cover q u hu with hread | habove
  · exact hread
  · exact absurd ⟨nodeAt_of_hashAbove (exact_storeOf T₀) h.rep h.ok.fits hu habove, hu.2⟩ hgone

theorem Opened.unread (h : Opened keccak T₀ t T) : Unread keccak (StoreOf keccak T₀) t.tracer := by
  rintro p r v u ⟨hv, -⟩ hu hsmall
  rw [Option.eq_none_iff_forall_ne_some]
  intro b hb
  obtain ⟨w, hw, hbig⟩ := h.read hb
  rw [nodeAt_append hv, hu] at hw
  cases hw
  exact hsmall hbig

/-- The deletions the tracer knows of. -/
theorem Opened.mem_deletedNodes (h : Opened keccak T₀ t T) {q : Path} : q ∈ t.tracer.deletedNodes ↔
      (T₀.HasNode q ∧ ¬ T.HasNode q) ∧ (t.tracer.accessList q).isSome = true := by
  rw [Tracer.deletedNodes, Finset.mem_filter, (h.tracks q).2]

/-- The deletions by themselves, when the trie is empty. -/
theorem Opened.diff_empty (h : Opened keccak T₀ t .nil) : Diff keccak T₀ .nil (fun q =>
      if q ∈ t.tracer.deletedNodes then some newDeleted else none) where
  written hu := by cases hu.1
  dropped := by
    intro q hgone u hu
    rw [if_pos]
    rw [h.mem_deletedNodes]
    refine ⟨⟨?_, hasNode_nil q⟩, h.read_of_dropped hu (hgone u)⟩
    rw [HasNode, hu.1]
    rfl
  quiet _ := by
    split
    · exact .inr rfl
    · exact .inl rfl

/-- The deletions and what the committer adds to them. -/
theorem Opened.diff_commits (h : Opened keccak T₀ t T) {set : NodeSet}
    (hset : Commits keccak (StoreOf keccak T₀) t.tracer [] T (newNodeSet.addDeleted t.tracer.deletedNodes) set) :
    Diff keccak T₀ T set.nodes := by
  have hstart : ∀ q, (newNodeSet.addDeleted t.tracer.deletedNodes).nodes q =
      if q ∈ t.tracer.deletedNodes then some newDeleted else none := fun _ => rfl
  have hentry : ∀ q, Entry keccak (StoreOf keccak T₀) t.tracer q (T.nodeAt q)
      (if q ∈ t.tracer.deletedNodes then some newDeleted else none) (set.nodes q) := by
    intro q
    rw [← hstart]
    exact hset.entry q
  refine ⟨?_, ?_, ?_⟩
  · rintro q u ⟨hu, hbig⟩
    rcases (hentry q).big u hu hbig with hlive | ⟨hold, heq⟩
    · exact .inl hlive
    refine .inr ⟨hold, ?_⟩
    rw [heq, if_neg]
    rw [h.mem_deletedNodes]
    rintro ⟨⟨-, hgone⟩, -⟩
    exact hgone (by rw [HasNode, hu]; rfl)
  · intro q hgone u hu
    have hread := h.read_of_dropped hu (hgone u)
    cases hq : T.nodeAt q with
    | none =>
      rw [(hentry q).absent hq, if_pos]
      rw [h.mem_deletedNodes]
      refine ⟨⟨?_, ?_⟩, hread⟩
      · rw [HasNode, hu.1]
        rfl
      · rw [HasNode, hq]
        exact Bool.false_ne_true
    | some w =>
      rcases (hentry q).small w hq fun hbig => hgone w ⟨hq, hbig⟩ with ⟨-, hdel⟩ | ⟨-, hnone⟩
      · exact hdel
      · rw [hnone h.unread] at hread
        cases hread
  · intro q hgone
    have hstart : ∀ {e : Option SetNode},
        e = (if q ∈ t.tracer.deletedNodes then some newDeleted else none) →
        e = none ∨ e = some newDeleted := by
      rintro e rfl
      split
      · exact .inr rfl
      · exact .inl rfl
    cases hq : T.nodeAt q with
    | none => exact hstart ((hentry q).absent hq)
    | some w =>
      rcases (hentry q).small w hq fun hbig => hgone w ⟨hq, hbig⟩ with ⟨-, hdel⟩ | ⟨heq, -⟩
      · exact .inr hdel
      · exact hstart heq

/-- A trie whose root has not been touched is the one it was opened on. -/
theorem Opened.eq_of_clean (h : Opened keccak T₀ t T) {hash : Hash}
    (hclean : t.root.cache = (some hash, false)) : T = T₀ := by
  have hstored : StoreOf keccak T₀ [] T := by
    have hrep := h.rep
    generalize t.root = root at hclean hrep
    cases hrep with
    | nil => cases hclean
    | value p v => cases hclean
    | hash => cases hclean
    | short _ hf _ =>
      have hcache := Prod.mk.inj hclean
      exact hf.clean (by rw [hcache.1]; exact Option.some_ne_none _) hcache.2
    | full _ hf _ =>
      have hcache := Prod.mk.inj hclean
      exact hf.clean (by rw [hcache.1]; exact Option.some_ne_none _) hcache.2
  have hnode := hstored.1
  cases T₀ with
  | nil => cases hnode
  | value v => cases hnode
  | short k c => cases hnode; rfl
  | full ts => cases hnode; rfl

theorem diff_refl (T : TrieTree) : Diff keccak T T fun _ => none where
  written hu := Or.inr ⟨hu, rfl⟩
  dropped hgone u hu := absurd hu (hgone u)
  quiet _ := Or.inl rfl

/-- `Commit` returns the root hash of the trie and the difference to the one it was
opened on. -/
theorem Opened.commitWith (h : Opened keccak T₀ t T) {schedule : Schedule} (hschedule : schedule.Ok)
    (collectLeaf : Bool) :
    ∃ t' nodes, Trie.commitWith keccak schedule t collectLeaf =
        (t', some (treeHash keccak T, nodes)) ∧
      Diff keccak T₀ T (entriesOf nodes) := by
  have hfits := h.ok.fits
  rcases hfits with rfl | hshape
  · -- nothing is left
    have hroot := h.rep.nil_node
    have hdiff := h.diff_empty
    rw [Trie.commitWith, hroot]
    by_cases hnone : t.tracer.deletedNodes = ∅
    · simp only [if_pos hnone]
      refine ⟨_, _, rfl, ?_⟩
      rw [hnone] at hdiff
      exact hdiff
    · simp only [if_neg hnone]
      exact ⟨_, _, rfl, hdiff⟩
  obtain ⟨t₁, hhash, hopen, hcached⟩ := h.rootHash
  have hroot : t.root ≠ .nil := fun hnil => by
    have hrep := h.rep
    rw [hnil] at hrep
    exact hshape.ne_nil hrep.nil_tree
  rw [Trie.commitWith]
  split
  · rename_i heq
    exact absurd heq hroot
  simp only [hhash]
  rcases hcache : t₁.root.cache with ⟨hashed, dirty⟩
  cases dirty with
  | false =>
    -- nothing has changed
    cases hashed with
    | none =>
      exfalso
      have hrep := hopen.rep
      generalize t₁.root = root at hcache hrep hcached
      cases hrep with
      | nil => cases hcache
      | value p v => cases hcache
      | hash => cases hcache
      | short => exact hcached (Prod.mk.inj hcache).1
      | full => exact hcached (Prod.mk.inj hcache).1
    | some hash =>
      have heq := hopen.eq_of_clean hcache
      subst heq
      exact ⟨_, _, rfl, diff_refl T⟩
  | true =>
    obtain ⟨set, c, hout, hcommits, -⟩ := commitRoot_spec t₁.tracer collectLeaf
      (storeOk_storeOf T₀) hopen.rep hshape hcached hschedule
      (newNodeSet.addDeleted t₁.tracer.deletedNodes)
    simp only [hout]
    exact ⟨_, some set, rfl, hopen.diff_commits hcommits⟩

theorem Opened.commit (h : Opened keccak T₀ t T) {order : List Nibble}
    (horder : order.Perm childSlots) (collectLeaf : Bool) :
    ∃ t' nodes, Commit keccak order t collectLeaf = (t', some (treeHash keccak T, nodes)) ∧
      Diff keccak T₀ T (entriesOf nodes) := by
  refine h.commitWith ?_ collectLeaf
  split
  · exact horder
  · trivial

end Opened

end GoEthereum.Trie

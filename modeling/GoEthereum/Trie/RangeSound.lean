import GoEthereum.Trie.Rebuild
import GoEthereum.Trie.Stacked

/-!
# What an accepted range proof says

The batch of an accepted proof is increasing and no key of it starts with another. Each
way to accept says something about the trie with the root hash: the batch is the whole
trie, or nothing follows the first key as hex keys compare, or the trie is what the
updates made of the tree without the range. In the last case every entry of the batch
whose way is free of hash nodes is in the trie, and every entry of the trie in the range
is in the batch.
-/

namespace GoEthereum.Trie

open Keccak (keccak256)
open Radix (Tree Terminated Word)
open Radix.Tree List

variable {allow more : Bool} {key lastKey v : Bytes} {n : Node} {db : ProofDb} {st : StackTrie}
  {tr : Trie}

/-- A trie whose keys all have one length. -/
structure FixedTrie (L : Nat) (T : TrieTree) : Prop where
  ok : TrieOk T
  length : ∀ key v, T.lookup (keybytesToHex key) = some v → key.length = L

theorem FixedTrie.hexLength {L : Nat} {T : TrieTree} (h : FixedTrie L T) {k : Path}
    (hk : T.lookup k = some v) : k.length = 2 * L + 1 := by
  obtain ⟨key, rfl⟩ := h.ok.keys hk
  rw [length_keybytesToHex, h.length key v hk]

theorem FixedTrie.bare {L : Nat} {T : TrieTree} (h : FixedTrie L T) : Bare term T := by
  rcases h.ok.fits with rfl | hshape
  · trivial
  · exact hshape.bare h.ok.minimal fun k v hk => h.hexLength hk

/-- The trie without the range between two keys. -/
theorem FixedTrie.cut {L : Nat} {T : TrieTree} (h : FixedTrie L T) {l r : Bytes}
    (hlr : keybytesToHex l < keybytesToHex r) :
    Cut term ValueOk maxKey T (Out (keybytesToHex l) (keybytesToHex r))
      (outside T (keybytesToHex l) (keybytesToHex r)) :=
  cut_outside h.ok.fits h.bare h.ok.minimal (terminated_keybytesToHex l)
    (terminated_keybytesToHex r) hlr

/-- Whether there is an entry to the right of a key; a panic is at a hash node on the way. -/
theorem FixedTrie.right {L : Nat} {T : TrieTree} (hT : FixedTrie L T)
    (hrep : Rep keccak (StoreOf keccak T) [] n T) (key : Bytes) :
    match hasRightElement n (keybytesToHex key) with
    | some more => more = true ↔ ∃ k' v, T.lookup k' = some v ∧ keybytesToHex key < k'
    | none => HashAbove n (keybytesToHex key) :=
  hasRightElement_out hrep (.inl ⟨terminated_keybytesToHex key, hT.ok.fits⟩) hT.bare hT.ok.minimal

/-! ## The batch -/

/-- What the checks on the batch ensure. -/
structure BatchOk (keys values : List Bytes) : Prop where
  lengths : keys.length = values.length
  ascending : keys.Pairwise fun key key' => key < key' ∧ ¬ key <+: key'
  values : ∀ v ∈ values, v ≠ []

theorem checkBatch_ok {keys values : List Bytes} (hlen : keys.length = values.length)
    (h : checkBatch keys values = .ok ()) : BatchOk keys values := by
  induction keys generalizing values with
  | nil =>
    rw [length_nil, eq_comm, length_eq_zero_iff] at hlen
    subst hlen
    exact ⟨rfl, .nil, fun v hv => absurd hv not_mem_nil⟩
  | cons key keys ih =>
    cases values with
    | nil => cases hlen
    | cons value values =>
      rw [checkBatch.eq_def] at h
      simp only at h
      split at h
      · cases h
      rename_i hnext
      split at h
      · cases h
      rename_i hvalue
      have hrest := ih (Nat.succ.inj hlen) h
      refine ⟨hlen, pairwise_cons.mpr ⟨?_, hrest.ascending⟩, ?_⟩
      · -- the next key, and through it the others
        cases keys with
        | nil => exact fun key' hkey' => absurd hkey' not_mem_nil
        | cons key₁ keys =>
          have hfirst : Radix.Before (nibbles key) (nibbles key₁) := by
            rw [before_nibbles_iff]
            simp only at hnext
            split at hnext
            · cases hnext
            next hlt =>
            split at hnext
            · cases hnext
            · rename_i hpre
              exact ⟨not_not.mp hlt, hpre⟩
          intro key' hkey'
          rw [← before_nibbles_iff]
          rcases mem_cons.mp hkey' with rfl | hmem
          · exact hfirst
          · have hnext := (pairwise_cons.mp hrest.ascending).1 key' hmem
            exact hfirst.trans (before_nibbles_iff.mpr hnext)
      · intro v hv
        rcases mem_cons.mp hv with rfl | hmem
        · rintro rfl
          exact hvalue rfl
        · exact hrest.values v hmem

section Batch

variable {keys values : List Bytes}

theorem BatchOk.pairwise (h : BatchOk keys values) :
    (keys.zip values).Pairwise fun e e' => e.1 < e'.1 ∧ ¬ e.1 <+: e'.1 := by
  have hmap : (keys.zip values).map Prod.fst = keys := map_fst_zip h.lengths.le
  have hasc := h.ascending
  rw [← hmap, pairwise_map] at hasc
  exact hasc

theorem BatchOk.exists_value (h : BatchOk keys values) (hkey : key ∈ keys) :
    ∃ v, (key, v) ∈ keys.zip values := by
  have hmap : (keys.zip values).map Prod.fst = keys := map_fst_zip h.lengths.le
  rw [← hmap, mem_map] at hkey
  obtain ⟨⟨key, v⟩, hmem, rfl⟩ := hkey
  exact ⟨v, hmem⟩

theorem BatchOk.head_le (h : BatchOk keys values) {first : Bytes} (hhead : keys.head? = some first)
    (hkey : key ∈ keys) : first ≤ key := by
  cases keys with
  | nil => cases hhead
  | cons key₀ keys =>
    cases hhead
    rcases mem_cons.mp hkey with rfl | hmem
    · exact List.le_refl _
    · exact bytes_lt_asymm ((pairwise_cons.mp h.ascending).1 key hmem).1

/-- The last key comes after the others, and not as an extension of them. -/
theorem BatchOk.last (h : BatchOk keys values) {last : Bytes} (hlast : keys.getLast? = some last)
    (hkey : key ∈ keys) : key = last ∨ (key < last ∧ ¬ key <+: last) := by
  obtain ⟨init, rfl⟩ := getLast?_eq_some_iff.mp hlast
  rcases mem_append.mp hkey with hmem | hmem
  · exact .inr ((pairwise_append.mp h.ascending).2.2 key hmem last (mem_singleton_self last))
  · exact .inl (mem_singleton.mp hmem)

end Batch

/-! ## The ways to accept -/

section Accept

variable {keccak : Bytes → Hash}

/-- The ways `VerifyRangeProof` has to accept. -/
inductive Accepted (keccak : Bytes → Hash) (fuel : Nat) (root : Hash) (firstKey : Bytes)
    (keys values : List Bytes) : Option ProofDb → Bool → Prop where
  | whole {st : StackTrie} : stackAll keccak NewStackTrie (keys.zip values) = .ok st →
      (st.Hash keccak).2 = root → Accepted keccak fuel root firstKey keys values none false
  | empty {db : ProofDb} {n : Node} : keys = [] →
      proofToPath fuel root none firstKey db true = .ok (n, none) →
      hasRightElement n (keybytesToHex firstKey) = some false →
      Accepted keccak fuel root firstKey keys values (some db) false
  | one {db : ProofDb} {n : Node} {val : Option Bytes} {more : Bool} : keys = [firstKey] →
      values = [val.getD []] → proofToPath fuel root none firstKey db false = .ok (n, val) →
      hasRightElement n (keybytesToHex firstKey) = some more →
      Accepted keccak fuel root firstKey keys values (some db) more
  | range {db : ProofDb} {lastKey : Bytes} {tr : Trie} {more : Bool} :
      keys.getLast? = some lastKey → firstKey < lastKey → firstKey.length = lastKey.length →
      rebuild fuel root firstKey lastKey (keys.zip values) db = .ok tr →
      (rootHash keccak tr).2 = root →
      hasRightElement (rootHash keccak tr).1.root (keybytesToHex lastKey) = some more →
      Accepted keccak fuel root firstKey keys values (some db) more

theorem moreElements_eq_ok (h : moreElements n key = .ok more) :
    hasRightElement n (keybytesToHex key) = some more := by
  rw [moreElements] at h
  split at h
  · cases h
  · rename_i heq
    rw [heq]
    exact congrArg some (Except.ok.inj h)

theorem accepted_of_ok {fuel : Nat} {root : Hash} {firstKey : Bytes} {keys values : List Bytes}
    {proof : Option ProofDb}
    (h : VerifyRangeProof keccak fuel root firstKey keys values proof = .ok more) :
    BatchOk keys values ∧ Accepted keccak fuel root firstKey keys values proof more := by
  unfold VerifyRangeProof at h
  split at h
  · cases h
  rename_i hlen
  have hlen := not_not.mp hlen
  split at h
  · cases h
  rename_i hcheck
  have hbatch := checkBatch_ok hlen hcheck
  refine ⟨hbatch, ?_⟩
  cases proof with
  | none =>
    simp only at h
    split at h
    · cases h
    rename_i st hst
    split at h
    · cases h
    rename_i hhash
    cases h
    exact .whole hst (not_not.mp hhash)
  | some db =>
    simp only at h
    split at h
    · -- no elements
      rename_i hkeys
      split at h
      · cases h
      rename_i n val hpath
      split at h
      · cases h
      rename_i hval
      rw [not_not.mp hval] at hpath
      split at h
      · cases h
      · cases h
      · rename_i hmore
        cases h
        exact .empty (getLast?_eq_none_iff.mp hkeys) hpath (moreElements_eq_ok hmore)
    · rename_i lastKey hlast
      split at h
      · -- one element
        rename_i hone
        obtain ⟨key, rfl⟩ := length_eq_one_iff.mp hone.1
        obtain ⟨v, rfl⟩ := length_eq_one_iff.mp (hlen.symm.trans hone.1)
        split at h
        · cases h
        rename_i n val hpath
        split at h
        · cases h
        rename_i hkey
        split at h
        · cases h
        rename_i hval
        refine .one ?_ ?_ hpath (moreElements_eq_ok h)
        · rw [not_not.mp hkey]
          rfl
        · rw [not_not.mp hval]
          rfl
      · split at h
        · cases h
        rename_i hlt
        split at h
        · cases h
        rename_i hlengths
        split at h
        · cases h
        rename_i tr hrebuild
        split at h
        · cases h
        rename_i hgot
        exact .range hlast (not_not.mp hlt) (not_not.mp hlengths) hrebuild (not_not.mp hgot)
          (moreElements_eq_ok h)

end Accept

/-! ## What each way says about the trie -/

section Meaning

variable {keccak : Bytes → Hash} {T : TrieTree} {L fuel : Nat} {firstKey : Bytes}
  {keys values : List Bytes}

/-- The blobs whose hashes a call may rest on: those of the trie, those of the database and
those of the trie that the call builds. -/
def rangeBlobs (keccak : Bytes → Hash) (T : TrieTree) (fuel : Nat) (firstKey : Bytes)
    (keys values : List Bytes) : Option ProofDb → Set Bytes
  | none => blobs keccak T ∪ {Rlp.emptyString} ∪
      { b | ∃ st, stackAll keccak NewStackTrie (keys.zip values) = .ok st ∧
        ∃ x ∈ (st.Hash keccak).1.reports, b = x.2.2 }
  | some db => blobs keccak T ∪ {Rlp.emptyString} ∪ valuesOf db ∪
      { b | ∃ lastKey tr, keys.getLast? = some lastKey ∧
        rebuild fuel (treeHash keccak T) firstKey lastKey (keys.zip values) db = .ok tr ∧
        b ∈ nodeBlobs keccak tr.root }

/-- The entries are slices in memory. -/
def BatchInMemory (keys values : List Bytes) : Prop :=
  ∀ e ∈ keys.zip values, KeyOk e.1 ∧ e.2.length < 2 ^ 63

theorem BatchOk.valueOk (h : BatchOk keys values) (hmem : BatchInMemory keys values)
    {e : Bytes × Bytes} (he : e ∈ keys.zip values) : KeyOk e.1 ∧ ValueOk e.2 :=
  ⟨(hmem e he).1, h.values _ (of_mem_zip he).2, (hmem e he).2⟩

/-- A database of nodes of a trie that has those on the way to a key. -/
structure Provides (keccak : Bytes → Hash) (T : TrieTree) (db : ProofDb) (key : Bytes) : Prop where
  genuine : Genuine keccak T db
  complete : ∀ p u, StoreOf keccak T p u → p <+: keybytesToHex key →
    db (keccak (enc keccak u)) ≠ none

/-- Following a key that the database provides. -/
theorem PathOut.exists {out : Except ProofErr (Node × Option Bytes)}
    (h : PathOut keccak T db allow fuel [] n T (keybytesToHex key) out)
    (hdb : Provides keccak T db key) (hfuel : (keybytesToHex key).length < fuel)
    (hallow : allow = true ∨ T.lookup (keybytesToHex key) ≠ none) :
    ∃ n', out = .ok (n', T.lookup (keybytesToHex key)) ∧
      Resolved keccak (StoreOf keccak T) [] n T (keybytesToHex key) n' := by
  cases h with
  | found hfound _ => exact ⟨_, rfl, hfound⟩
  | absent hfalse hnone =>
    rcases hallow with htrue | hsome
    · rw [hfalse] at htrue
      cases htrue
    · exact absurd hnone hsome
  | missing hpre hs hnone =>
    rw [nil_append] at hs
    exact absurd hnone (hdb.complete _ _ hs hpre)
  | fuel hle => exact absurd hle (not_le.mpr hfuel)

/-- The edge path of a key, for a trie that is not empty. -/
theorem proofToPath_out (hdb : Genuine keccak T db) (hT : TrieShape maxKey T) (key : Bytes)
    (allow : Bool) (fuel : Nat) :
    ∃ n, PathOut keccak T db allow fuel [] n T (keybytesToHex key)
      (proofToPath fuel (treeHash keccak T) none key db allow) := by
  have hstored := storeOf_root keccak hT
  have hrep := (sim_resolve (storeOk_storeOf T) hT hstored newTracer).rep
  refine ⟨firstNode keccak (some (keccak (enc keccak T))) T, ?_⟩
  rw [proofToPath, treeHash_of_shape hT, resolveNode]
  cases hbuf : db (keccak (enc keccak T)) with
  | none => exact .missing nil_prefix hstored hbuf
  | some buf =>
    rw [hdb [] T buf hstored hbuf]
    simp only [decodeNode_enc le_rfl hT]
    exact pathLoop_spec hdb le_rfl fuel hrep hT (terminated_keybytesToHex key)
      (loaded_firstNode _ _ _)

theorem proofToPath_ok (hdb : Genuine keccak T db) (hT : TrieShape maxKey T) {val : Option Bytes}
    (h : proofToPath fuel (treeHash keccak T) none key db allow = .ok (n, val)) :
    Rep keccak (StoreOf keccak T) [] n T ∧ val = T.lookup (keybytesToHex key) ∧
      (allow = false → val ≠ none) := by
  obtain ⟨n₀, hout⟩ := proofToPath_out hdb hT key allow fuel
  rw [h] at hout
  cases hout with
  | found hfound hallow => exact ⟨hfound.rep, rfl, hallow⟩

/-- A database has no root node for the empty trie. -/
theorem shape_of_proofToPath {B : Set Bytes} (hT : FixedTrie L T)
    (hempty : keccak Rlp.emptyString = emptyRootHash) (haddr : ContentAddressed keccak db)
    (hinj : Set.InjOn keccak B) (hmem : Rlp.emptyString ∈ B) (hdb : valuesOf db ⊆ B)
    {out : Node × Option Bytes}
    (h : proofToPath fuel (treeHash keccak T) none key db allow = .ok out) :
    TrieShape maxKey T := by
  refine hT.ok.fits.resolve_left ?_
  rintro rfl
  have hroot : treeHash keccak .nil = emptyRootHash := rfl
  rw [proofToPath, hroot, resolveNode] at h
  split at h
  · cases h
  rename_i hres
  split at hres
  · cases hres
  rename_i buf hbuf
  have heq : buf = Rlp.emptyString :=
    hinj (hdb ⟨_, hbuf⟩) hmem ((haddr _ _ hbuf).trans hempty.symm)
  rw [heq] at hres
  cases hres

theorem stackAll_of_updateAll {st' : StackTrie} {pairs : List (Bytes × Bytes)}
    (h : updateAll keccak st pairs = .ok st') : stackAll keccak st pairs = .ok st' := by
  induction pairs generalizing st with
  | nil =>
    cases h
    rfl
  | cons e pairs ih =>
    obtain ⟨key, v⟩ := e
    rw [updateAll] at h
    rw [stackAll]
    split at h
    · cases h
    · rename_i hup
      rw [hup]
      exact ih h

/-- The empty key is alone, and the stack trie does not take it. -/
theorem ne_nil_of_stackAll (hbatch : BatchOk keys values)
    (h : stackAll keccak NewStackTrie (keys.zip values) = .ok st) (hkey : key ∈ keys) :
    key ≠ [] := by
  rintro rfl
  obtain ⟨keys₁, keys₂, rfl⟩ := append_of_mem hkey
  have hasc := pairwise_append.mp hbatch.ascending
  have hfirst : keys₁ = [] := by
    cases keys₁ with
    | nil => rfl
    | cons key₁ keys₁ =>
      exact absurd (hasc.2.2 key₁ mem_cons_self [] mem_cons_self).1 (not_lt_nil key₁)
  subst hfirst
  cases values with
  | nil => exact absurd hbatch.lengths (Nat.succ_ne_zero _)
  | cons v values =>
    have hv : v.isEmpty = false := by
      rw [Bool.eq_false_iff, Ne, List.isEmpty_iff]
      exact hbatch.values v mem_cons_self
    have hup : StackTrie.Update keccak NewStackTrie [] v = .error .panic := by
      rw [StackTrie.Update, hv]
      rfl
    rw [nil_append, zip_cons_cons, stackAll, hup] at h
    cases h

/-- Without a proof the batch is the whole trie. -/
theorem whole_entries (hT : FixedTrie L T) (hempty : keccak Rlp.emptyString = emptyRootHash)
    (hbatch : BatchOk keys values) (hmem : BatchInMemory keys values)
    (hinj : Set.InjOn keccak (rangeBlobs keccak T fuel firstKey keys values none))
    (hst : stackAll keccak NewStackTrie (keys.zip values) = .ok st)
    (hhash : (st.Hash keccak).2 = treeHash keccak T) : HasEntries T (keys.zip values) := by
  have hstr : Rlp.emptyString ∈ rangeBlobs keccak T fuel firstKey keys values none :=
    Or.inl (.inr rfl)
  have hsub : blobs keccak T ⊆ rangeBlobs keccak T fuel firstKey keys values none :=
    fun b hb => Or.inl (.inl hb)
  have hnil : HasEntries .nil [] := fun key value => by simp
  by_cases hpairs : keys.zip values = []
  · rw [hpairs] at hst ⊢
    cases hst
    have hT' : T = .nil := by
      refine eq_of_treeHash_eq hinj hempty hstr hT.ok.fits (.inl rfl) hsub ?_ ?_
      · rintro b ⟨p, u, ⟨hu, -⟩, -⟩
        cases hu
      · rw [← hhash]
        exact bytesToHash_val emptyRootHash
    rw [hT']
    exact hnil
  · have hinput : StackInput ([] ++ keys.zip values) := by
      refine ⟨?_, ?_, fun e he => ⟨?_, (hmem e he).1⟩, fun e he => ⟨?_, (hmem e he).2⟩⟩
      · exact hbatch.pairwise.imp And.left
      · exact hbatch.pairwise.imp And.right
      · exact ne_nil_of_stackAll hbatch hst (of_mem_zip he).1
      · exact hbatch.values _ (of_mem_zip he).2
    have hnew : Stacks keccak NewStackTrie .nil := stacks_new
    obtain ⟨st', T', hup, hst', hT', hentries⟩ :=
      hnew.updateAll (keys.zip values) trieOk_nil hnil (fun last h => by cases h) hinput
    have heq : st' = st := by
      have := stackAll_of_updateAll hup
      rw [hst] at this
      exact (Except.ok.inj this).symm
    subst heq
    have hshape : TrieShape maxKey T' := by
      refine hT'.fits.resolve_left fun hn => hpairs ?_
      rw [eq_nil_iff_forall_not_mem]
      rintro ⟨key, v⟩ hmem'
      have := (hentries key v).mpr hmem'
      rw [hn] at this
      cases this
    obtain ⟨hroot, -, hreports⟩ := hst'.hash hshape
    have hTT : T = T' := by
      refine eq_of_treeHash_eq hinj hempty hstr hT.ok.fits hT'.fits hsub ?_ (hhash.symm.trans hroot)
      rintro b ⟨p, u, hu, rfl⟩
      exact .inr ⟨st', hst, (p, entryOf keccak u), (hreports _).mpr ⟨u, hu, rfl⟩, rfl⟩
    rw [hTT]
    exact hentries

/-- What the updates of a range proof start from: the tree without the range, in memory. -/
structure Edged (keccak : Bytes → Hash) (T : TrieTree) (l r : Path) (n : Node) : Prop where
  rep : Rep keccak (StoreOf keccak T) [] n (outside T l r)
  above : ∀ s, HashAbove n s → Out l r s
  clear : ∀ s, HashAbove n s → ¬ s <+: l ∧ ¬ s <+: r

/-- Both edge paths, what is between them removed, and the updates: with both paths in the
database and an entry at the last key nothing fails. -/
theorem rebuild_out (hT : FixedTrie L T) (hshape : TrieShape maxKey T) (hdb : Genuine keccak T db)
    (hlt : firstKey < lastKey) (hlen : firstKey.length = lastKey.length)
    (hbatch : BatchOk keys values) (hmem : BatchInMemory keys values) (fuel : Nat) :
    match rebuild fuel (treeHash keccak T) firstKey lastKey (keys.zip values) db with
    | .ok tr => ∃ n, Edged keccak T (keybytesToHex firstKey) (keybytesToHex lastKey) n ∧
      Rebuilding keccak (StoreOf keccak T) n tr
        (insertAll (outside T (keybytesToHex firstKey) (keybytesToHex lastKey))
          (freeOf n (keys.zip values)))
    | .error _ => ¬ ((keybytesToHex firstKey).length < fuel ∧ Provides keccak T db firstKey ∧
      Provides keccak T db lastKey ∧ T.lookup (keybytesToHex lastKey) ≠ none) := by
  have hhex : keybytesToHex firstKey < keybytesToHex lastKey := (hex_lt_iff hlen).mpr hlt
  obtain ⟨n₀, hout₁⟩ := proofToPath_out hdb hshape firstKey true fuel
  rw [rebuild]
  generalize proofToPath fuel (treeHash keccak T) none firstKey db true = out₁ at hout₁ ⊢
  obtain e | ⟨n₁, val₁⟩ := out₁
  · rintro ⟨hfuel, hfirst, -, -⟩
    obtain ⟨n, heq, -⟩ := hout₁.exists hfirst hfuel (.inl rfl)
    cases heq
  cases hout₁ with
  | found hfound₁ _ =>
  have hload : Loaded n₁ := by
    rintro h rfl
    exact hfound₁.clear trivial
  have hout₂ := @pathLoop_spec keccak maxKey T db true hdb le_rfl fuel _ _ _ _ hfound₁.rep hshape
    (terminated_keybytesToHex lastKey) hload
  simp only [proofToPath]
  generalize pathLoop db true fuel n₁ (keybytesToHex lastKey) = out₂ at hout₂ ⊢
  obtain e | ⟨n₂, val₂⟩ := out₂
  · rintro ⟨hfuel, -, hlast, -⟩
    rw [length_keybytesToHex, hlen, ← length_keybytesToHex] at hfuel
    obtain ⟨n, heq, -⟩ := hout₂.exists hlast hfuel (.inl rfl)
    cases heq
  cases hout₂ with
  | found hfound _ =>
  have hout₃ := unsetInternal_out hfound.rep .none hshape hT.bare
    (terminated_keybytesToHex firstKey) (terminated_keybytesToHex lastKey) hhex
  have hclear₁ : ¬ HashAbove n₂ (keybytesToHex firstKey) := fun habove =>
    hfound₁.clear (hfound.above _ habove)
  dsimp only
  generalize unsetInternal n₂ (keybytesToHex firstKey) (keybytesToHex lastKey) .none = out₃
    at hout₃ ⊢
  obtain e | ⟨n₃, empty⟩ := out₃
  · rintro ⟨-, -, -, hsome⟩
    obtain ⟨n, heq, -⟩ := hout₃.exists hclear₁ hfound.clear hsome
    cases heq
  cases hout₃ with
  | done hun =>
  have hcut := hT.cut hhex
  have hstart : Rebuilding keccak (StoreOf keccak T) (leftOver (n₃, empty))
      { newEmpty with root := leftOver (n₃, empty) }
      (outside T (keybytesToHex firstKey) (keybytesToHex lastKey)) :=
    ⟨hun.rep, hcut.fits, fun s => Iff.rfl, rfl, rfl⟩
  obtain ⟨tr, hup, htr⟩ := hstart.updateEach (storeOk_storeOf T) (keys.zip values)
    fun e he => hbatch.valueOk hmem he
  rw [leftOver] at hup
  simp only [hup]
  refine ⟨leftOver (n₃, empty), ⟨hun.rep, fun s hs => (hun.above s hs).2, ?_⟩, htr⟩
  intro s hs
  have hs₂ := (hun.above s hs).1
  constructor
  · rintro ⟨s', heq⟩
    rw [← heq] at hclear₁
    exact hclear₁ (hs₂.append s')
  · rintro ⟨s', heq⟩
    refine hfound.clear ?_
    rw [← heq]
    exact hs₂.append s'

theorem pairwise_freeOf (hbatch : BatchOk keys values) (n : Node) :
    (freeOf n (keys.zip values)).Pairwise fun e e' => e.1 ≠ e'.1 := by
  rw [freeOf]
  refine List.Pairwise.filter _ (pairwise_map.mpr (hbatch.pairwise.imp ?_))
  rintro e e' ⟨hlt, -⟩ heq
  rw [keybytesToHex_injective heq] at hlt
  exact bytes_lt_asymm hlt hlt

/-- The trie of a range proof: what its entries are, given where the hash nodes were. -/
structure Ranged (T : TrieTree) (firstKey lastKey : Bytes) (pairs : List (Bytes × Bytes))
    (n : Node) : Prop where
  put : ∀ key v, (key, v) ∈ pairs → ¬ HashAbove n (keybytesToHex key) →
    T.lookup (keybytesToHex key) = some v
  all : ∀ key v, T.lookup (keybytesToHex key) = some v →
    ¬ Out (keybytesToHex firstKey) (keybytesToHex lastKey) (keybytesToHex key) →
    (key, v) ∈ pairs

/-- The last key is in the trie: its way is resolved. -/
theorem Ranged.last (hranged : Ranged T firstKey lastKey (keys.zip values) n)
    (hbatch : BatchOk keys values)
    (hedged : Edged keccak T (keybytesToHex firstKey) (keybytesToHex lastKey) n)
    (hlast : keys.getLast? = some lastKey) : ∃ v, T.lookup (keybytesToHex lastKey) = some v := by
  obtain ⟨v, hv⟩ := hbatch.exists_value (mem_of_getLast? hlast)
  refine ⟨v, hranged.put lastKey v hv fun habove => ?_⟩
  exact (hedged.clear _ habove).2 prefix_rfl

/-- The way to a key of the batch that is not before the first key is free of hash nodes. -/
theorem Edged.free (hT : FixedTrie L T)
    (hedged : Edged keccak T (keybytesToHex firstKey) (keybytesToHex lastKey) n)
    (hbatch : BatchOk keys values) (hlast : keys.getLast? = some lastKey) (hL : firstKey.length = L)
    (hkey : key ∈ keys) (hle : firstKey ≤ key) : ¬ HashAbove n (keybytesToHex key) := by
  intro habove
  obtain ⟨q, u, hq, habove', hstored⟩ := hedged.rep.exists_hash habove
  rw [nil_append] at hstored
  have hclear := hedged.clear q habove'
  obtain ⟨s, hs⟩ := hq
  rcases hedged.above q habove' with hbefore | hafter
  · -- the hash node is before the first key
    rcases bytes_lt_trichotomy firstKey key with hlt | rfl | hgt
    · by_cases hpre : firstKey <+: key
      · -- it is not below the keys of the trie
        refine hclear.1 ?_
        have hshape := hT.ok.fits.resolve_left fun hnil => by
          have := hstored.1
          rw [hnil] at this
          cases this
        obtain ⟨hu, hterm⟩ := hshape.nodeAt hstored.1
        have hmin := hT.ok.minimal.nodeAt hstored.1
        obtain ⟨k, v, hk⟩ := hu.exists_entry hmin
        have hentry : T.lookup (q ++ k) = some v := by
          rw [lookup_append_of_nodeAt hstored.1, hk]
        have hlen := hT.hexLength hentry
        have hpos := length_pos_iff.mpr (hu.terminated hk).ne_nil
        rw [length_append] at hlen
        have hqlen : q.length ≤ (nibbles firstKey).length := by
          rw [length_nibbles, hL]
          omega
        have hqkey : q <+: nibbles key ++ [term] := ⟨s, hs⟩
        have hfkey : nibbles firstKey <+: nibbles key ++ [term] :=
          (nibbles_prefix_iff.mpr hpre).trans (prefix_append _ _)
        exact (prefix_of_prefix_length_le hqkey hfkey hqlen).trans (prefix_append _ _)
      · have hbad : Radix.Before q (keybytesToHex firstKey) := ⟨hbefore, hclear.1⟩
        have hlt' := hbad.append s []
        rw [hs, append_nil] at hlt'
        exact lt_asymm hlt' (hex_lt_of_lt hlt hpre)
    · exact hclear.1 ⟨s, hs⟩
    · exact hle hgt
  · -- the hash node is after the last key
    have hnot : ¬ keybytesToHex key < q := Radix.not_lt_of_isPrefix ⟨s, hs⟩
    rcases hbatch.last hlast hkey with rfl | ⟨hlt, hpre⟩
    · exact hnot hafter
    · exact hnot ((hex_lt_of_lt hlt hpre).trans hafter)

/-- A call that reads an edge path is about a trie that is not empty, and the database has
no other nodes for it. -/
theorem genuine_of_path (hT : FixedTrie L T) (hempty : keccak Rlp.emptyString = emptyRootHash)
    (haddr : ContentAddressed keccak db)
    (hinj : Set.InjOn keccak (rangeBlobs keccak T fuel firstKey keys values (some db)))
    {out : Node × Option Bytes}
    (h : proofToPath fuel (treeHash keccak T) none firstKey db allow = .ok out) :
    TrieShape maxKey T ∧ Genuine keccak T db := by
  constructor
  · exact shape_of_proofToPath hT hempty haddr hinj (.inl (.inl (.inr rfl)))
      (fun b hb => Or.inl (.inr hb)) h
  · refine haddr.genuine (hinj.mono ?_)
    rintro b (hb | hb)
    · exact .inl (.inl (.inl hb))
    · exact .inl (.inr hb)

section Range

variable (hT : FixedTrie L T) (hempty : keccak Rlp.emptyString = emptyRootHash)
  (hlt : firstKey < lastKey) (hlen : firstKey.length = lastKey.length)
  (hbatch : BatchOk keys values) (hmem : BatchInMemory keys values)
  (hlast : keys.getLast? = some lastKey)
  (hinj : Set.InjOn keccak (rangeBlobs keccak T fuel firstKey keys values (some db)))
  (hok : rebuild fuel (treeHash keccak T) firstKey lastKey (keys.zip values) db = .ok tr)
  (hroot : (rootHash keccak tr).2 = treeHash keccak T)

include hT hempty hlt hlen hbatch hmem hlast hinj hok hroot

/-- The trie with the expected root hash is the one that was built. -/
theorem ranged_of_rebuilding
    (h : Rebuilding keccak (StoreOf keccak T) n tr (insertAll (outside T (keybytesToHex firstKey) (keybytesToHex lastKey)) (freeOf n (keys.zip values)))) :
    Rep keccak (StoreOf keccak T) [] (rootHash keccak tr).1.root T ∧
      Ranged T firstKey lastKey (keys.zip values) n := by
  have hhex : keybytesToHex firstKey < keybytesToHex lastKey := (hex_lt_iff hlen).mpr hlt
  have hcut := hT.cut hhex
  have hfree : ∀ e ∈ freeOf n (keys.zip values),
      Terminated term e.1 ∧ e.1.length ≤ maxKey ∧ ValueOk e.2 := by
    rintro ⟨k, v⟩ he
    obtain ⟨⟨key, hmem', rfl⟩, -⟩ := mem_freeOf.mp he
    obtain ⟨hkey, hv⟩ := hbatch.valueOk hmem hmem'
    exact ⟨terminated_keybytesToHex key, length_hexKey_le hkey, hv⟩
  obtain ⟨root, heq, hrep, -, -⟩ := rootHash_spec h.rep h.fits
  -- the blobs of the tree are in memory or those of the trie
  have htree : insertAll (outside T (keybytesToHex firstKey) (keybytesToHex lastKey))
      (freeOf n (keys.zip values)) = T := by
    rw [heq] at hroot
    refine eq_of_treeHash_eq hinj hempty ?_ h.fits hT.ok.fits ?_ ?_ hroot
    · exact .inl (.inl (.inr rfl))
    · rintro b ⟨p, u, ⟨hu, hstand⟩, rfl⟩
      have hshape := h.fits.resolve_left fun hnil => by
        rw [hnil] at hu
        cases hu
      rcases mem_nodeBlobs_or (storeOk_storeOf T) h.rep hshape hu hstand with hin | hstored
      · exact .inr ⟨lastKey, tr, hlast, hok, hin⟩
      · exact .inl (.inl (.inl ⟨_, u, hstored, rfl⟩))
    · exact fun b hb => Or.inl (.inl (.inl hb))
  have hlookup := fun (key v : Bytes) => lookup_insertAll hcut.fits hfree
    (pairwise_freeOf hbatch n) (keybytesToHex key) v
  rw [htree] at hrep hlookup
  refine ⟨by rw [heq]; exact hrep, fun key v hkey hclear => ?_, fun key v hkey hout => ?_⟩
  · exact (hlookup key v).mpr (.inl (mem_freeOf.mpr ⟨⟨key, hkey, rfl⟩, hclear⟩))
  · rcases (hlookup key v).mp hkey with hin | ⟨hleft, -⟩
    · obtain ⟨⟨key', hmem', hhexkey⟩, -⟩ := mem_freeOf.mp hin
      rwa [← keybytesToHex_injective hhexkey]
    · exact absurd ((hcut.lookup _ v).mp hleft).2 hout

/-- A range that is accepted: the trie that was built is the trie. -/
theorem range_accepted (haddr : ContentAddressed keccak db) :
    firstKey.length = L ∧ Rep keccak (StoreOf keccak T) [] (rootHash keccak tr).1.root T ∧
      ∃ n, Edged keccak T (keybytesToHex firstKey) (keybytesToHex lastKey) n ∧
        Ranged T firstKey lastKey (keys.zip values) n := by
  have hpath : ∃ out, proofToPath fuel (treeHash keccak T) none firstKey db true = .ok out := by
    rw [rebuild] at hok
    split at hok
    · cases hok
    · exact ⟨_, by assumption⟩
  obtain ⟨out, hpath⟩ := hpath
  obtain ⟨hshape, hdb⟩ := genuine_of_path hT hempty haddr hinj hpath
  have hout := rebuild_out hT hshape hdb hlt hlen hbatch hmem fuel
  rw [hok] at hout
  obtain ⟨n, hedged, hbuilt⟩ := hout
  obtain ⟨hrep, hranged⟩ := ranged_of_rebuilding hT hempty hlt hlen hbatch hmem hlast hinj hok
    hroot hbuilt
  obtain ⟨v, hv⟩ := hranged.last hbatch hedged hlast
  exact ⟨hlen.trans (hT.length lastKey v hv), hrep, n, hedged, hranged⟩

end Range

/-- The end of a call: whether the trie goes on after a key of it. -/
theorem more_iff (hT : FixedTrie L T) (hrep : Rep keccak (StoreOf keccak T) [] n T)
    (hkey : key.length = L) (h : hasRightElement n (keybytesToHex key) = some more) :
    more = true ↔ ∃ key' v, T.lookup (keybytesToHex key') = some v ∧ key < key' := by
  have hright := hT.right hrep key
  rw [h] at hright
  refine hright.trans ⟨?_, ?_⟩
  · rintro ⟨k', v, hk', hlt⟩
    obtain ⟨key', rfl⟩ := hT.ok.keys hk'
    exact ⟨key', v, hk', (hex_lt_iff (hkey.trans (hT.length key' v hk').symm)).mp hlt⟩
  · rintro ⟨key', v, hk', hlt⟩
    exact ⟨_, v, hk', (hex_lt_iff (hkey.trans (hT.length key' v hk').symm)).mpr hlt⟩

/-! ## Soundness -/

/-- Every pair of an accepted batch is an entry of the trie at or after the first key,
exactly when the first pair's key is: what comes before the first key is not checked where
a hash node hides it, since the errors of the updates are dropped. -/
theorem accepted_batch_sound_iff (hT : FixedTrie L T)
    (hempty : keccak Rlp.emptyString = emptyRootHash) (fuel : Nat) (firstKey : Bytes)
    (keys values : List Bytes) (proof : Option ProofDb) (hmem : BatchInMemory keys values)
    (haddr : ∀ db, proof = some db → ContentAddressed keccak db)
    (hinj : Set.InjOn keccak (rangeBlobs keccak T fuel firstKey keys values proof)) {more : Bool}
    (hok : VerifyRangeProof keccak fuel (treeHash keccak T) firstKey keys values proof = .ok more) :
    (∀ e ∈ keys.zip values, T.lookup (keybytesToHex e.1) = some e.2 ∧ firstKey ≤ e.1) ↔
      ∀ key, keys.head? = some key → firstKey ≤ key := by
  obtain ⟨hbatch, haccept⟩ := accepted_of_ok hok
  constructor
  · intro hall key hkey
    obtain ⟨v, hv⟩ := hbatch.exists_value (mem_of_mem_head? hkey)
    exact (hall (key, v) hv).2
  intro hhead
  have hfirst : ∀ e ∈ keys.zip values, firstKey ≤ e.1 := by
    intro e he
    have hkey := (of_mem_zip he).1
    cases hkeys : keys.head? with
    | none =>
      rw [head?_eq_none_iff.mp hkeys] at hkey
      exact absurd hkey not_mem_nil
    | some key => exact List.le_trans (hhead key hkeys) (hbatch.head_le hkeys hkey)
  refine fun e he => ⟨?_, hfirst e he⟩
  cases haccept with
  | whole hst hhash => exact (whole_entries hT hempty hbatch hmem hinj hst hhash _ _).mpr he
  | empty hkeys =>
    rw [hkeys] at he
    exact absurd he not_mem_nil
  | @one db n val more hkeys hvalues hpath hmore =>
    obtain ⟨hshape, hdb⟩ := genuine_of_path hT hempty (haddr db rfl) hinj hpath
    obtain ⟨-, hval, hsome⟩ := proofToPath_ok hdb hshape hpath
    rw [hkeys, hvalues, zip_cons_cons, zip_nil_left, mem_singleton] at he
    rw [he, ← hval]
    cases val with
    | none => exact absurd rfl (hsome rfl)
    | some v => rfl
  | @range db lastKey tr more hlast hlt hlen hrebuild hroot hmore =>
    obtain ⟨hL, -, n, hedged, hranged⟩ := range_accepted hT hempty hlt hlen hbatch hmem
      hlast hinj hrebuild hroot (haddr db rfl)
    exact hranged.put e.1 e.2 he (hedged.free hT hbatch hlast hL (of_mem_zip he).1 (hfirst e he))

/-- Two keys; the leaf of the first one is stored apart. -/
def hiddenTrie : TrieTree :=
  .full fun i =>
    if i = 1 then .short [0, term] (.value (replicate 32 0x02))
    else if i = 2 then .short [1, term] (.value [0x01])
    else .nil

def hiddenLeaf : Bytes := enc keccak256 (.short [0, term] (.value (replicate 32 0x02)))

def hiddenBlob : Bytes := enc keccak256 hiddenTrie

/-- The edge path of both `0x20`, which is not in the trie, and `0x21`. -/
def hiddenDb : ProofDb := fun h =>
  if h = keccak256 hiddenBlob then some hiddenBlob else none

/-- The blobs that a call with this trie and this database hashes. -/
def hiddenBlobs : List Bytes :=
  [hiddenBlob, hiddenLeaf, Rlp.emptyString, enc keccak256 (.short [1, term] (.value [0x01]))]

theorem hiddenTrie_eq : hiddenTrie = (Radix.Tree.nil.insert (keybytesToHex [0x10])
    (replicate 32 0x02)).insert (keybytesToHex [0x21]) [0x01] := by
  refine congrArg Tree.full (funext fun i => ?_)
  fin_cases i <;> rfl

theorem fixedTrie_hiddenTrie : FixedTrie 1 hiddenTrie := by
  have hleaf : TrieOk (Radix.Tree.nil.insert (keybytesToHex [0x10]) (replicate 32 0x02)) :=
    trieOk_nil.insert (by unfold KeyOk; decide) (by decide)
  rw [hiddenTrie_eq]
  refine ⟨hleaf.insert (by unfold KeyOk; decide) (by decide), fun key v h => ?_⟩
  have hentries : HasEntries _ [([0x10], replicate 32 0x02), ([0x21], [0x01])] :=
    (hasEntries_nil.insert trieOk_nil (fun _ h => absurd h not_mem_nil) _).insert hleaf
      (by decide) _
  rcases mem_cons.mp ((hentries key v).mp h) with heq | hmem
  · cases heq
    rfl
  · cases mem_singleton.mp hmem
    rfl

theorem shape_hiddenTrie : TrieShape maxKey hiddenTrie :=
  fixedTrie_hiddenTrie.ok.fits.resolve_left (by rintro ⟨⟩)

theorem contentAddressed_hiddenDb : ContentAddressed keccak256 hiddenDb := by
  intro h b hb
  obtain ⟨rfl, ⟨⟩⟩ := Option.ite_none_right_eq_some.mp hb
  rfl

theorem keccak_emptyString : keccak256 Rlp.emptyString = emptyRootHash := by
  decide +kernel

theorem nodup_hiddenBlobs : (hiddenBlobs.map keccak256).Nodup := by
  decide +kernel

theorem hidden_rebuild :
    (rebuild 9 (keccak256 hiddenBlob) [0x20] [0x21] [([0x10], [0x07]), ([0x21], [0x01])]
      hiddenDb).toOption.map (fun tr => nodeBlobs keccak256 tr.root) =
      some [hiddenBlob, enc keccak256 (.short [1, term] (.value [0x01]))] := by
  decide +kernel

theorem nodeAt_leaf {k p : Path} {u : TrieTree}
    (h : (.short k (.value v) : TrieTree).nodeAt p = some u) : u = .short k (.value v) := by
  cases p with
  | nil =>
    cases h
    rfl
  | cons j p =>
    rw [Radix.Tree.nodeAt] at h
    split at h <;> cases h

theorem blobs_hiddenTrie {b : Bytes} (h : b ∈ blobs keccak256 hiddenTrie) :
    b ∈ hiddenBlobs := by
  obtain ⟨p, u, ⟨hu, hstand⟩, rfl⟩ := h
  cases p with
  | nil =>
    cases hu
    exact mem_cons_self
  | cons i p =>
    have hu' : (if i = 1 then .short [0, term] (.value (replicate 32 0x02))
      else if i = 2 then .short [1, term] (.value [0x01]) else .nil : TrieTree).nodeAt p =
        some u := hu
    by_cases h1 : i = 1
    · rw [if_pos h1] at hu'
      rw [nodeAt_leaf hu']
      exact mem_cons_of_mem _ mem_cons_self
    rw [if_neg h1] at hu'
    by_cases h2 : i = 2
    · rw [if_pos h2] at hu'
      rw [nodeAt_leaf hu']
      exact mem_cons_of_mem _ (mem_cons_of_mem _ (mem_cons_of_mem _ mem_cons_self))
    · rw [if_neg h2] at hu'
      cases hu'

theorem treeHash_hiddenTrie : treeHash keccak256 hiddenTrie = keccak256 hiddenBlob :=
  treeHash_of_shape shape_hiddenTrie

theorem hidden_injOn : Set.InjOn keccak256 (rangeBlobs keccak256 hiddenTrie 9 [0x20]
      [[0x10], [0x21]] [[0x07], [0x01]] (some hiddenDb)) := by
  have hsub : ∀ b ∈ rangeBlobs keccak256 hiddenTrie 9 [0x20] [[0x10], [0x21]]
      [[0x07], [0x01]] (some hiddenDb), b ∈ hiddenBlobs := by
    rintro b (((hb | rfl) | ⟨h, hb⟩) | ⟨lastKey, tr, hlast, htr, hb⟩)
    · exact blobs_hiddenTrie hb
    · exact mem_cons_of_mem _ (mem_cons_of_mem _ mem_cons_self)
    · obtain ⟨-, ⟨⟩⟩ := Option.ite_none_right_eq_some.mp hb
      exact mem_cons_self
    · cases hlast
      have hnodes := hidden_rebuild
      rw [treeHash_hiddenTrie] at htr
      have htr' : rebuild 9 (keccak256 hiddenBlob) [0x20] [0x21]
        [([0x10], [0x07]), ([0x21], [0x01])] hiddenDb = .ok tr := htr
      rw [htr'] at hnodes
      have hlist : nodeBlobs keccak256 tr.root =
          [hiddenBlob, enc keccak256 (.short [1, term] (.value [0x01]))] :=
        Option.some.inj hnodes
      rw [hlist] at hb
      rcases mem_cons.mp hb with rfl | hb
      · exact mem_cons_self
      · rw [mem_singleton.mp hb]
        exact mem_cons_of_mem _ (mem_cons_of_mem _ (mem_cons_of_mem _ mem_cons_self))
  intro b hb b' hb' heq
  exact inj_on_of_nodup_map nodup_hiddenBlobs (hsub b hb) (hsub b' hb') heq

theorem eq_ok_of_toOption {ε α : Type} {x : Except ε α} {a : α} (h : x.toOption = some a) :
    x = .ok a := by
  cases x with
  | error e => cases h
  | ok b => exact congrArg Except.ok (Option.some.inj h)

theorem hidden_run :
    VerifyRangeProof keccak256 9 (treeHash keccak256 hiddenTrie) [0x20]
      [[0x10], [0x21]] [[0x07], [0x01]] (some hiddenDb) = .ok false := by
  rw [treeHash_hiddenTrie]
  exact eq_ok_of_toOption (by decide +kernel)

theorem hidden_inMemory : BatchInMemory [[0x10], [0x21]] [[0x07], [0x01]] := by
  unfold BatchInMemory
  decide

theorem accepted_batch_sound_iff_hiddenTrie : (∀ e ∈ [[0x10], [0x21]].zip [[0x07], [0x01]],
      hiddenTrie.lookup (keybytesToHex e.1) = some e.2 ∧ [0x20] ≤ e.1) ↔
      ∀ key : Bytes, [[0x10], [0x21]].head? = some key → [0x20] ≤ key :=
  accepted_batch_sound_iff fixedTrie_hiddenTrie keccak_emptyString 9 [0x20] [[0x10], [0x21]]
    [[0x07], [0x01]] (some hiddenDb) hidden_inMemory
    (fun _ h => Option.some.inj h ▸ contentAddressed_hiddenDb) hidden_injOn hidden_run

/-- A pair that the trie does not have, before the first key, is accepted. -/
theorem foreign_pair_accepted :
    FixedTrie 1 hiddenTrie ∧ ContentAddressed keccak256 hiddenDb ∧
      Set.InjOn keccak256 (rangeBlobs keccak256 hiddenTrie 9 [0x20]
        [[0x10], [0x21]] [[0x07], [0x01]] (some hiddenDb)) ∧
      VerifyRangeProof keccak256 9 (treeHash keccak256 hiddenTrie) [0x20]
        [[0x10], [0x21]] [[0x07], [0x01]] (some hiddenDb) = .ok false ∧
      hiddenTrie.lookup (keybytesToHex [0x10]) ≠ some [0x07] :=
  ⟨fixedTrie_hiddenTrie, contentAddressed_hiddenDb, hidden_injOn, hidden_run, by decide⟩

/-! ## Completeness -/

/-- An accepted batch has the entries of the trie in its range, and the flag says whether
the trie goes on after it. -/
structure HidesNothing (T : TrieTree) (firstKey : Bytes) (keys values : List Bytes)
    (proof : Option ProofDb) (more : Bool) : Prop where
  inRange : ∀ lastKey, keys.getLast? = some lastKey → ∀ key v,
    T.lookup (keybytesToHex key) = some v → firstKey ≤ key → key ≤ lastKey →
    (key, v) ∈ keys.zip values
  empty : keys = [] → proof ≠ none → ∀ key v,
    T.lookup (keybytesToHex key) = some v → ¬ firstKey ≤ key
  whole : proof = none → ∀ key, key ∈ keys ↔ ∃ v, T.lookup (keybytesToHex key) = some v
  more_iff : more = true ↔ proof ≠ none ∧ ∃ lastKey, keys.getLast? = some lastKey ∧
    ∃ key v, T.lookup (keybytesToHex key) = some v ∧ lastKey < key

/-- Without a proof nothing is hidden. -/
theorem hidesNothing_whole (hbatch : BatchOk keys values)
    (hentries : HasEntries T (keys.zip values)) :
    HidesNothing T firstKey keys values none false where
  inRange lastKey _ key v hkey _ _ := (hentries key v).mp hkey
  empty _ hne := absurd rfl hne
  whole _ key := by
    constructor
    · intro hkey
      obtain ⟨v, hv⟩ := hbatch.exists_value hkey
      exact ⟨v, (hentries key v).mpr hv⟩
    · rintro ⟨v, hv⟩
      exact (of_mem_zip ((hentries key v).mp hv)).1
  more_iff := iff_of_false Bool.false_ne_true fun h => h.1 rfl

/-- A single element. -/
theorem hidesNothing_one (hT : FixedTrie L T) (hrep : Rep keccak (StoreOf keccak T) [] n T)
    (hv : T.lookup (keybytesToHex firstKey) = some v)
    (hmore : hasRightElement n (keybytesToHex firstKey) = some more) :
    HidesNothing T firstKey [firstKey] [v] (some db) more where
  inRange lastKey hlast key w hkey hle hle' := by
    cases hlast
    have heq : key = firstKey := by
      rcases bytes_lt_trichotomy key firstKey with hlt | heq | hgt
      · exact absurd hlt hle
      · exact heq
      · exact absurd hgt hle'
    subst heq
    rw [hv] at hkey
    cases hkey
    exact mem_singleton_self _
  empty hnil := by cases hnil
  whole hnone := by cases hnone
  more_iff := by
    rw [Trie.more_iff hT hrep (hT.length _ v hv) hmore]
    constructor
    · intro h
      exact ⟨fun hnone => (by cases hnone), firstKey, rfl, h⟩
    · rintro ⟨-, lastKey, hlast, h⟩
      cases hlast
      exact h

/-- A range between two edges. -/
theorem hidesNothing_range (hT : FixedTrie L T) (hlast : keys.getLast? = some lastKey)
    (hL : firstKey.length = L) (hlen : firstKey.length = lastKey.length) {n' : Node}
    (hrep : Rep keccak (StoreOf keccak T) [] n T)
    (hranged : Ranged T firstKey lastKey (keys.zip values) n')
    (hmore : hasRightElement n (keybytesToHex lastKey) = some more) :
    HidesNothing T firstKey keys values (some db) more where
  inRange lastKey' hlast' key v hkey hle hle' := by
    rw [hlast] at hlast'
    cases hlast'
    have hlength := hT.length key v hkey
    refine hranged.all key v hkey ?_
    rintro (hlt | hlt)
    · exact hle ((hex_lt_iff (hlength.trans hL.symm)).mp hlt)
    · exact hle' ((hex_lt_iff (hlen.symm.trans (hL.trans hlength.symm))).mp hlt)
  empty hnil := by
    rw [hnil] at hlast
    cases hlast
  whole hnone := by cases hnone
  more_iff := by
    rw [Trie.more_iff hT hrep (hlen.symm.trans hL) hmore]
    constructor
    · intro h
      exact ⟨fun hnone => (by cases hnone), lastKey, hlast, h⟩
    · rintro ⟨-, lastKey', hlast', h⟩
      rw [hlast] at hlast'
      cases hlast'
      exact h

/-- An accepted batch hides nothing, except that an empty one is accepted although the
trie has an entry whose key is longer than the first key and starts with it: as hex keys
such an entry comes before the first key. -/
theorem accepted_batch_hides_iff (hT : FixedTrie L T)
    (hempty : keccak Rlp.emptyString = emptyRootHash) (fuel : Nat) (firstKey : Bytes)
    (keys values : List Bytes) (proof : Option ProofDb) (hmem : BatchInMemory keys values)
    (haddr : ∀ db, proof = some db → ContentAddressed keccak db)
    (hinj : Set.InjOn keccak (rangeBlobs keccak T fuel firstKey keys values proof)) {more : Bool}
    (hok : VerifyRangeProof keccak fuel (treeHash keccak T) firstKey keys values proof = .ok more) :
    HidesNothing T firstKey keys values proof more ↔
      ¬ (keys = [] ∧ proof ≠ none ∧ ∃ key v, T.lookup (keybytesToHex key) = some v ∧
        firstKey <+: key ∧ firstKey ≠ key) := by
  obtain ⟨hbatch, haccept⟩ := accepted_of_ok hok
  constructor
  · rintro h ⟨hkeys, hproof, key, v, hkey, hpre, -⟩
    refine h.empty hkeys hproof key v hkey fun hlt => ?_
    exact Radix.not_lt_of_isPrefix (nibbles_prefix_iff.mpr hpre) (nibbles_lt_iff.mpr hlt)
  intro hlong
  cases haccept with
  | whole hst hhash =>
    exact hidesNothing_whole hbatch (whole_entries hT hempty hbatch hmem hinj hst hhash)
  | @empty db n hkeys hpath hmore =>
    obtain ⟨hshape, hdb⟩ := genuine_of_path hT hempty (haddr db rfl) hinj hpath
    obtain ⟨hrep, hval, -⟩ := proofToPath_ok hdb hshape hpath
    have hright := hT.right hrep firstKey
    rw [hmore] at hright
    have hnone : ∀ key v, T.lookup (keybytesToHex key) = some v → ¬ firstKey ≤ key := by
      intro key v hkey hle
      have hne : firstKey ≠ key := by
        rintro rfl
        rw [← hval] at hkey
        cases hkey
      have hpre : ¬ firstKey <+: key := by
        intro hpre
        exact hlong ⟨hkeys, fun hnone => (by cases hnone), key, v, hkey, hpre, hne⟩
      rcases bytes_lt_trichotomy firstKey key with hlt | heq | hgt
      · exact Bool.false_ne_true (hright.mpr ⟨_, v, hkey, hex_lt_of_lt hlt hpre⟩)
      · exact hne heq
      · exact hle hgt
    subst hkeys
    refine ⟨fun lastKey hlast => (by cases hlast), fun _ _ => hnone, (by rintro ⟨⟩), ?_⟩
    refine iff_of_false Bool.false_ne_true ?_
    rintro ⟨-, lastKey, hlast, -⟩
    cases hlast
  | @one db n val more hkeys hvalues hpath hmore =>
    obtain ⟨hshape, hdb⟩ := genuine_of_path hT hempty (haddr db rfl) hinj hpath
    obtain ⟨hrep, hval, hsome⟩ := proofToPath_ok hdb hshape hpath
    rw [hkeys, hvalues]
    cases val with
    | none => exact absurd rfl (hsome rfl)
    | some v => exact hidesNothing_one hT hrep hval.symm hmore
  | @range db lastKey tr more hlast hlt hlen hrebuild hroot hmore =>
    obtain ⟨hL, hrep, n, -, hranged⟩ := range_accepted hT hempty hlt hlen hbatch hmem
      hlast hinj hrebuild hroot (haddr db rfl)
    exact hidesNothing_range hT hlast hL hlen hrep hranged hmore

/-- One key, of two bytes. -/
def longTrie : TrieTree := .short [1, 2, 3, 4, term] (.value [0x01])

def longBlob : Bytes := enc keccak256 longTrie

def longDb : ProofDb := fun h => if h = keccak256 longBlob then some longBlob else none

theorem shape_longTrie : TrieShape maxKey longTrie :=
  .leaf ⟨[1, 2, 3, 4], rfl, by decide⟩ (by decide) (by decide)

theorem fixedTrie_longTrie : FixedTrie 2 longTrie where
  ok :=
    { fits := Or.inr shape_longTrie
      minimal := trivial
      keys := fun h => ⟨[0x12, 0x34], (lookup_leaf_eq_some h).1⟩ }
  length := by
    intro key v h
    have hkey : keybytesToHex key = keybytesToHex [0x12, 0x34] := (lookup_leaf_eq_some h).1
    rw [keybytesToHex_injective hkey]
    rfl

theorem contentAddressed_longDb : ContentAddressed keccak256 longDb := by
  intro h b hb
  obtain ⟨rfl, ⟨⟩⟩ := Option.ite_none_right_eq_some.mp hb
  rfl

theorem keccak_longBlob_ne : keccak256 longBlob ≠ emptyRootHash := by
  decide +kernel

theorem long_injOn : Set.InjOn keccak256 (rangeBlobs keccak256 longTrie 9 [0x12] [] []
      (some longDb)) := by
  have hsub : ∀ b ∈ rangeBlobs keccak256 longTrie 9 [0x12] [] [] (some longDb),
      b = longBlob ∨ b = Rlp.emptyString := by
    rintro b (((⟨p, u, ⟨hu, -⟩, rfl⟩ | rfl) | ⟨h, hb⟩) | ⟨lastKey, tr, hlast, -⟩)
    · exact .inl (congrArg _ (nodeAt_leaf hu))
    · exact .inr rfl
    · obtain ⟨-, ⟨⟩⟩ := Option.ite_none_right_eq_some.mp hb
      exact .inl rfl
    · cases hlast
  intro b hb b' hb' heq
  rcases hsub b hb with rfl | rfl
  · rcases hsub b' hb' with rfl | rfl
    · rfl
    · exact absurd (heq.trans keccak_emptyString) keccak_longBlob_ne
  · rcases hsub b' hb' with rfl | rfl
    · exact absurd (heq.symm.trans keccak_emptyString) keccak_longBlob_ne
    · rfl

theorem long_run :
    VerifyRangeProof keccak256 9 (treeHash keccak256 longTrie) [0x12] [] []
      (some longDb) = .ok false := by
  have hroot : treeHash keccak256 longTrie = keccak256 longBlob :=
    treeHash_of_shape shape_longTrie
  rw [hroot]
  exact eq_ok_of_toOption (by decide +kernel)

theorem accepted_batch_hides_iff_longTrie : HidesNothing longTrie [0x12] [] [] (some longDb) false ↔
      ¬ (([] : List Bytes) = [] ∧ some longDb ≠ none ∧ ∃ key v,
        longTrie.lookup (keybytesToHex key) = some v ∧ [0x12] <+: key ∧ [0x12] ≠ key) :=
  accepted_batch_hides_iff fixedTrie_longTrie keccak_emptyString 9 [0x12] [] [] (some longDb)
    (fun _ h => absurd h not_mem_nil)
    (fun _ h => Option.some.inj h ▸ contentAddressed_longDb) long_injOn long_run

/-- An empty batch is accepted although the trie has an entry after the first key. -/
theorem longer_key_hidden : FixedTrie 2 longTrie ∧ ContentAddressed keccak256 longDb ∧
      Set.InjOn keccak256 (rangeBlobs keccak256 longTrie 9 [0x12] [] []
        (some longDb)) ∧
      VerifyRangeProof keccak256 9 (treeHash keccak256 longTrie) [0x12] [] []
        (some longDb) = .ok false ∧
      longTrie.lookup (keybytesToHex [0x12, 0x34]) = some [0x01] ∧
      ([0x12] : Bytes) ≤ [0x12, 0x34] ∧
      ¬ HidesNothing longTrie [0x12] [] [] (some longDb) false := by
  have hlookup : longTrie.lookup (keybytesToHex [0x12, 0x34]) = some [0x01] := by decide
  have hle : ([0x12] : Bytes) ≤ [0x12, 0x34] := by decide
  refine ⟨fixedTrie_longTrie, contentAddressed_longDb, long_injOn, long_run, hlookup, hle, ?_⟩
  intro h
  exact h.empty rfl (fun hnone => (by cases hnone)) _ _ hlookup hle

end Meaning

end GoEthereum.Trie

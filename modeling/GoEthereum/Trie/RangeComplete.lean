import GoEthereum.Trie.RangeSound

/-!
# Honest range proofs

The database has the nodes that `Prove` writes for the two edge keys. Both edge paths are
found in it, none of the panics is reached, and the updates put back exactly what was
removed: the tree between the one without the range and the trie is the trie once it has
its entries.
-/

namespace GoEthereum.Trie

open Keccak (keccak256)
open Radix (Tree Terminated Word)
open Radix.Tree List

variable {key v : Bytes} {db : ProofDb}

section Honest

variable {keccak : Bytes → Hash} {T : TrieTree} {L fuel : Nat} {firstKey lastKey : Bytes}
  {keys values : List Bytes} {pairs : List (Bytes × Bytes)}

theorem hex_length_lt (hkey : key.length = L) (hfuel : 2 * L + 1 < fuel) :
    (keybytesToHex key).length < fuel := by
  rw [length_keybytesToHex, hkey]
  exact hfuel

theorem FixedTrie.right_exists {n : Node} (hT : FixedTrie L T)
    (hrep : Rep keccak (StoreOf keccak T) [] n T) (hclear : ¬ HashAbove n (keybytesToHex key)) :
    ∃ more, hasRightElement n (keybytesToHex key) = some more := by
  have hright := hT.right hrep key
  cases h : hasRightElement n (keybytesToHex key) with
  | some more => exact ⟨more, rfl⟩
  | none =>
    rw [h] at hright
    exact absurd hright hclear

/-- Entries one after the other in the order of keys, from the first one that is not before
the first key. -/
structure IsRun (T : TrieTree) (firstKey lastKey : Bytes) (pairs : List (Bytes × Bytes)) :
    Prop where
  ascending : pairs.Pairwise fun e e' => e.1 < e'.1
  last : (pairs.map Prod.fst).getLast? = some lastKey
  entries : ∀ key v, (key, v) ∈ pairs ↔
    T.lookup (keybytesToHex key) = some v ∧ firstKey ≤ key ∧ key ≤ lastKey

theorem zip_map_fst_snd (pairs : List (Bytes × Bytes)) :
    (pairs.map Prod.fst).zip (pairs.map Prod.snd) = pairs := by
  induction pairs with
  | nil => rfl
  | cons e pairs ih =>
    rw [map_cons, map_cons, zip_cons_cons, ih]

/-! ## The batch -/

theorem checkBatch_of_batchOk (h : BatchOk keys values) : checkBatch keys values = .ok () := by
  induction keys generalizing values with
  | nil => rfl
  | cons key keys ih =>
    cases values with
    | nil => rfl
    | cons value values =>
      have hasc := pairwise_cons.mp h.ascending
      have hrest : BatchOk keys values :=
        ⟨Nat.succ.inj h.lengths, hasc.2, fun v hv => h.values v (mem_cons_of_mem _ hv)⟩
      have hvalue : ¬ value.isEmpty = true := by
        rw [List.isEmpty_iff]
        exact h.values value mem_cons_self
      rw [checkBatch.eq_def]
      cases keys with
      | nil =>
        simp only [if_neg hvalue]
        exact ih hrest
      | cons key' keys =>
        obtain ⟨hlt, hpre⟩ := hasc.1 key' mem_cons_self
        simp only [hlt, not_true, if_false, if_neg hpre, if_neg hvalue]
        exact ih hrest

theorem FixedTrie.entryOk (hT : FixedTrie L T) (h : T.lookup (keybytesToHex key) = some v) :
    KeyOk key ∧ ValueOk v := by
  have hshape : TrieShape maxKey T := by
    refine hT.ok.fits.resolve_left ?_
    rintro rfl
    cases h
  obtain ⟨-, hlen, hv⟩ := hshape.entry h
  refine ⟨?_, hv⟩
  rw [length_keybytesToHex] at hlen
  simp only [KeyOk, maxKey] at *
  omega

theorem IsRun.batchOk (h : IsRun T firstKey lastKey pairs) (hT : FixedTrie L T) :
    BatchOk (pairs.map Prod.fst) (pairs.map Prod.snd) where
  lengths := by rw [length_map, length_map]
  ascending := by
    refine pairwise_map.mpr (h.ascending.imp_of_mem ?_)
    intro e e' he he' hlt
    have hlen := hT.length e.1 e.2 ((h.entries e.1 e.2).mp he).1
    have hlen' := hT.length e'.1 e'.2 ((h.entries e'.1 e'.2).mp he').1
    exact ⟨hlt, not_isPrefix_of_length (hlen.trans hlen'.symm) hlt⟩
  values := by
    intro v hv
    obtain ⟨e, he, rfl⟩ := mem_map.mp hv
    exact (hT.entryOk ((h.entries e.1 e.2).mp he).1).2.1

theorem IsRun.inMemory (h : IsRun T firstKey lastKey pairs) (hT : FixedTrie L T) :
    BatchInMemory (pairs.map Prod.fst) (pairs.map Prod.snd) := by
  intro e he
  rw [zip_map_fst_snd] at he
  have hok := hT.entryOk ((h.entries e.1 e.2).mp he).1
  exact ⟨hok.1, hok.2.2⟩

theorem IsRun.lookup_last (h : IsRun T firstKey lastKey pairs) :
    ∃ v, T.lookup (keybytesToHex lastKey) = some v ∧ firstKey ≤ lastKey := by
  obtain ⟨e, he, rfl⟩ := mem_map.mp (mem_of_getLast? h.last)
  obtain ⟨hlook, hle, -⟩ := (h.entries e.1 e.2).mp he
  exact ⟨e.2, hlook, hle⟩

/-- A run that ends at the first key is one entry. -/
theorem IsRun.eq_singleton (h : IsRun T firstKey firstKey pairs) :
    ∃ v, pairs = [(firstKey, v)] := by
  have hkey : ∀ e ∈ pairs, e.1 = firstKey := by
    intro e he
    obtain ⟨-, hle, hle'⟩ := (h.entries e.1 e.2).mp he
    rcases bytes_lt_trichotomy e.1 firstKey with hlt | heq | hgt
    · exact absurd hlt hle
    · exact heq
    · exact absurd hgt hle'
  cases pairs with
  | nil => cases h.last
  | cons e pairs =>
    obtain ⟨key, v⟩ := e
    have hfirst : key = firstKey := hkey (key, v) mem_cons_self
    subst hfirst
    cases pairs with
    | nil => exact ⟨v, rfl⟩
    | cons e' pairs =>
      have hlt := (pairwise_cons.mp h.ascending).1 e' mem_cons_self
      rw [hkey e' (mem_cons_of_mem _ mem_cons_self)] at hlt
      exact absurd hlt (bytes_lt_asymm hlt)

/-! ## The database -/

theorem provides_putAll (hinj : Set.InjOn keccak (blobs keccak T)) {es : List (Hash × Bytes)}
    (hsound : ∀ e ∈ es, ∃ p u, StoreOf keccak T p u ∧ e = entryOf keccak u)
    (hcomplete : ∀ p u, StoreOf keccak T p u → p <+: keybytesToHex key → entryOf keccak u ∈ es) :
    Provides keccak T (putAll emptyDb es) key where
  genuine := by
    intro p u b hu hb
    rcases of_putAll_eq_some hb with hmem | hnone
    · obtain ⟨q, w, hw, heq⟩ := hsound _ hmem
      rw [entryOf, Prod.mk.injEq] at heq
      rw [heq.2]
      exact hinj ⟨q, w, hw, rfl⟩ ⟨p, u, hu, rfl⟩ heq.1.symm
    · cases hnone
  complete p u hu hpre := putAll_ne_none (.inr ⟨_, hcomplete p u hu hpre⟩)

theorem proofToPath_exists (hdb : Provides keccak T db key) (hT : TrieShape maxKey T)
    (hfuel : (keybytesToHex key).length < fuel) (allow : Bool)
    (hallow : allow = true ∨ T.lookup (keybytesToHex key) ≠ none) :
    ∃ n, proofToPath fuel (treeHash keccak T) none key db allow =
        .ok (n, T.lookup (keybytesToHex key)) ∧
      Rep keccak (StoreOf keccak T) [] n T ∧ ¬ HashAbove n (keybytesToHex key) := by
  obtain ⟨n₀, hout⟩ := proofToPath_out hdb.genuine hT key allow fuel
  obtain ⟨n, hpath, hres⟩ := hout.exists hdb hfuel hallow
  exact ⟨n, hpath, hres.rep, hres.clear⟩

/-! ## The trie that is built -/

section

variable (h : IsRun T firstKey lastKey pairs) (hT : FixedTrie L T)
include h hT

/-- No key of the run is outside the edges. -/
theorem IsRun.not_out
    (hL : firstKey.length = L) (hmem : (key, v) ∈ pairs) :
    ¬ Out (keybytesToHex firstKey) (keybytesToHex lastKey) (keybytesToHex key) := by
  obtain ⟨hlook, hle, hle'⟩ := (h.entries key v).mp hmem
  obtain ⟨w, hw, -⟩ := h.lookup_last
  have hlen := hT.length key v hlook
  have hlen' := hT.length lastKey w hw
  rintro (hlt | hlt)
  · exact hle ((hex_lt_iff (hlen.trans hL.symm)).mp hlt)
  · exact hle' ((hex_lt_iff (hlen'.trans hlen.symm)).mp hlt)

/-- Putting the run back gives the trie. -/
theorem IsRun.insertAll_eq
    (hL : firstKey.length = L) (hlt : firstKey < lastKey) {n : Node}
    (hedged : Edged keccak T (keybytesToHex firstKey) (keybytesToHex lastKey) n) :
    insertAll (outside T (keybytesToHex firstKey) (keybytesToHex lastKey)) (freeOf n pairs) =
      T := by
  obtain ⟨w, hw, -⟩ := h.lookup_last
  have hhex : keybytesToHex firstKey < keybytesToHex lastKey :=
    (hex_lt_iff (hL.trans (hT.length lastKey w hw).symm)).mpr hlt
  have hcut := hT.cut hhex
  have hfree : ∀ e ∈ freeOf n pairs, Terminated term e.1 ∧ e.1.length ≤ maxKey ∧
      ValueOk e.2 ∧ T.lookup e.1 = some e.2 := by
    rintro ⟨k, v⟩ he
    obtain ⟨⟨key, hmem, rfl⟩, -⟩ := mem_freeOf.mp he
    have hlook := ((h.entries key v).mp hmem).1
    obtain ⟨hkey, hv⟩ := hT.entryOk hlook
    exact ⟨terminated_keybytesToHex key, length_hexKey_le hkey, hv, hlook⟩
  have hfits := fits_insertAll hcut.fits fun e he =>
    ⟨(hfree e he).1, (hfree e he).2.1, (hfree e he).2.2.1⟩
  refine (hcut.between.insertAll fun e he => ⟨(hfree e he).1, (hfree e he).2.2⟩).eq hfits
    hT.ok.fits hT.ok.minimal fun k => ?_
  have hnodup : (freeOf n pairs).Pairwise fun e e' => e.1 ≠ e'.1 := by
    have := pairwise_freeOf (h.batchOk hT) n
    rwa [zip_map_fst_snd] at this
  have hput : ∀ e ∈ freeOf n pairs, Terminated term e.1 ∧ e.1.length ≤ maxKey ∧ ValueOk e.2 :=
    fun e he => ⟨(hfree e he).1, (hfree e he).2.1, (hfree e he).2.2.1⟩
  apply Option.ext
  intro v
  constructor
  · intro hk
    rw [lookup_insertAll hcut.fits hput hnodup, hcut.lookup] at hk
    rcases hk with he | ⟨⟨hlook, -⟩, -⟩
    · exact (hfree _ he).2.2.2
    · exact hlook
  · intro hlook
    obtain ⟨key, rfl⟩ := hT.ok.keys hlook
    rw [lookup_insertAll hcut.fits hput hnodup, hcut.lookup]
    by_cases hout : Out (keybytesToHex firstKey) (keybytesToHex lastKey) (keybytesToHex key)
    · refine .inr ⟨⟨hlook, hout⟩, ?_⟩
      rintro ⟨k', v'⟩ he rfl
      obtain ⟨⟨key', hmem, heq⟩, -⟩ := mem_freeOf.mp he
      refine h.not_out hT hL hmem ?_
      rw [heq]
      exact hout
    · refine .inl (mem_freeOf.mpr ⟨⟨key, ?_, rfl⟩, fun habove => ?_⟩)
      · have hlen := hT.length key v hlook
        have hlen' := hT.length lastKey w hw
        rw [h.entries]
        refine ⟨hlook, fun hlt => hout (.inl ?_), fun hlt => hout (.inr ?_)⟩
        · exact (hex_lt_iff (hlen.trans hL.symm)).mpr hlt
        · exact (hex_lt_iff (hlen'.trans hlen.symm)).mpr hlt
      · exact hout (hedged.above _ habove)

/-! ## The calls -/

/-- A range between two edges is accepted. -/
theorem IsRun.accepted
    (hshape : TrieShape maxKey T) (hL : firstKey.length = L) (hlt : firstKey < lastKey)
    (hfirst : Provides keccak T db firstKey) (hlast : Provides keccak T db lastKey)
    (hfuel : 2 * L + 1 < fuel) :
    ∃ more, VerifyRangeProof keccak fuel (treeHash keccak T) firstKey (pairs.map Prod.fst)
      (pairs.map Prod.snd) (some db) = .ok more := by
  obtain ⟨v, hv, -⟩ := h.lookup_last
  have hlen : firstKey.length = lastKey.length := hL.trans (hT.length lastKey v hv).symm
  have hbatch := h.batchOk hT
  have hout := rebuild_out hT hshape hfirst.genuine hlt hlen hbatch (h.inMemory hT) fuel
  rw [zip_map_fst_snd] at hout
  generalize htr : rebuild fuel (treeHash keccak T) firstKey lastKey pairs db = out at hout
  obtain e | tr := out
  · refine absurd ⟨hex_length_lt hL hfuel, hfirst, hlast, ?_⟩ hout
    rw [hv]
    exact Option.some_ne_none v
  obtain ⟨n, hedged, hbuilt⟩ := hout
  rw [h.insertAll_eq hT hL hlt hedged] at hbuilt
  obtain ⟨root, hroot, hrep, habove, -⟩ := rootHash_spec hbuilt.rep hbuilt.fits
  obtain ⟨more, hmore⟩ := hT.right_exists hrep fun hhash =>
    (hedged.clear _ ((hbuilt.above _).mp ((habove _).mp hhash))).2 prefix_rfl
  refine ⟨more, ?_⟩
  have hone : ¬ ((pairs.map Prod.fst).length = 1 ∧ firstKey = lastKey) := by
    rintro ⟨-, rfl⟩
    exact bytes_lt_asymm hlt hlt
  unfold VerifyRangeProof
  rw [if_neg (not_not.mpr hbatch.lengths), checkBatch_of_batchOk hbatch]
  simp only [h.last, if_neg hone, if_neg (not_not.mpr hlt), if_neg (not_not.mpr hlen),
    zip_map_fst_snd, htr, hroot, moreElements, hmore, ne_eq, not_true, if_false]

end

/-- A single entry at the first key is accepted. -/
theorem IsRun.accepted_one (h : IsRun T firstKey firstKey [(firstKey, v)]) (hT : FixedTrie L T)
    (hshape : TrieShape maxKey T) (hL : firstKey.length = L)
    (hfirst : Provides keccak T db firstKey) (hfuel : 2 * L + 1 < fuel) :
    ∃ more, VerifyRangeProof keccak fuel (treeHash keccak T) firstKey [firstKey] [v]
      (some db) = .ok more := by
  have hlook := ((h.entries firstKey v).mp (mem_singleton_self _)).1
  have hfuel₁ := hex_length_lt hL hfuel
  obtain ⟨n, hpath, hrep, hclear⟩ := proofToPath_exists hfirst hshape hfuel₁ false
    (.inr (by rw [hlook]; exact Option.some_ne_none v))
  obtain ⟨more, hmore⟩ := hT.right_exists hrep hclear
  refine ⟨more, ?_⟩
  have hbatch := h.batchOk hT
  rw [map_cons, map_cons, map_nil, map_nil] at hbatch
  rw [hlook] at hpath
  unfold VerifyRangeProof
  rw [if_neg (not_not.mpr hbatch.lengths), checkBatch_of_batchOk hbatch]
  simp [hpath, moreElements, hmore]

/-- No entries, with the path of the first key. -/
theorem accepted_empty (hT : FixedTrie L T) (hshape : TrieShape maxKey T) (hL : firstKey.length = L)
    (hfirst : Provides keccak T db firstKey) (hfuel : 2 * L + 1 < fuel)
    (hnone : ∀ key v, T.lookup (keybytesToHex key) = some v → ¬ firstKey ≤ key) :
    VerifyRangeProof keccak fuel (treeHash keccak T) firstKey [] [] (some db) = .ok false := by
  have hfuel₁ := hex_length_lt hL hfuel
  obtain ⟨n, hpath, hrep, hclear⟩ :=
    proofToPath_exists hfirst hshape hfuel₁ true (.inl rfl)
  obtain ⟨more, hmore⟩ := hT.right_exists hrep hclear
  have hlook : T.lookup (keybytesToHex firstKey) = none := by
    cases hlook : T.lookup (keybytesToHex firstKey) with
    | none => rfl
    | some v => exact absurd (List.le_refl firstKey) (hnone firstKey v hlook)
  have hfalse : more = false := by
    rw [Bool.eq_false_iff, Ne, more_iff hT hrep hL hmore]
    rintro ⟨key, v, hkey, hlt⟩
    exact hnone key v hkey (bytes_lt_asymm hlt)
  rw [hlook] at hpath
  subst hfalse
  unfold VerifyRangeProof
  simp [checkBatch, hpath, moreElements, hmore]

/-- Honest range proofs are accepted: a run with the nodes that `Prove` writes for its edge
keys, and no entries with those for the first key. -/
theorem honest_range_accepted {T₀ : TrieTree} {t : Trie} (h : Opened keccak T₀ t T)
    (hne : T ≠ .nil) (hlen : ∀ key v, T.lookup (keybytesToHex key) = some v → key.length = L)
    (hinj : Set.InjOn keccak (blobs keccak T)) (firstKey : Bytes) (hL : firstKey.length = L)
    (fuel : Nat) (hfuel : 2 * L + 1 < fuel) :
    (∀ lastKey pairs, IsRun T firstKey lastKey pairs →
      ∃ es es' more, Prove keccak t firstKey = .ok es ∧ Prove keccak t lastKey = .ok es' ∧
        VerifyRangeProof keccak fuel (rootHash keccak t).2 firstKey (pairs.map Prod.fst)
          (pairs.map Prod.snd) (some (putAll emptyDb (es ++ es'))) = .ok more) ∧
    ((∀ key v, T.lookup (keybytesToHex key) = some v → ¬ firstKey ≤ key) →
      ∃ es, Prove keccak t firstKey = .ok es ∧
        VerifyRangeProof keccak fuel (rootHash keccak t).2 firstKey [] []
          (some (putAll emptyDb es)) = .ok false) := by
  have hT : FixedTrie L T := ⟨h.ok, hlen⟩
  have hshape : TrieShape maxKey T := h.ok.fits.resolve_left hne
  obtain ⟨t', hroot, -⟩ := h.rootHash
  obtain ⟨es, hprove, hproves⟩ := h.prove hne firstKey
  rw [hroot]
  constructor
  · intro lastKey pairs hrun
    obtain ⟨es', hprove', hproves'⟩ := h.prove hne lastKey
    have hsound : ∀ e ∈ es ++ es', ∃ p u, StoreOf keccak T p u ∧ e = entryOf keccak u := by
      intro e he
      rcases mem_append.mp he with he | he
      · exact hproves.sound e he
      · exact hproves'.sound e he
    have hfirst : Provides keccak T (putAll emptyDb (es ++ es')) firstKey :=
      provides_putAll hinj hsound fun p u hu hpre =>
        mem_append_left _ (hproves.complete p u hu hpre)
    have hlast : Provides keccak T (putAll emptyDb (es ++ es')) lastKey :=
      provides_putAll hinj hsound fun p u hu hpre =>
        mem_append_right _ (hproves'.complete p u hu hpre)
    rcases bytes_lt_trichotomy firstKey lastKey with hlt | rfl | hgt
    · obtain ⟨more, hmore⟩ := hrun.accepted hT hshape hL hlt hfirst hlast hfuel
      exact ⟨es, es', more, hprove, hprove', hmore⟩
    · -- the only key of the run is the first key
      obtain ⟨v, rfl⟩ := hrun.eq_singleton
      obtain ⟨more, hmore⟩ := hrun.accepted_one hT hshape hL hfirst hfuel
      exact ⟨es, es', more, hprove, hprove', hmore⟩
    · obtain ⟨v, -, hle⟩ := hrun.lookup_last
      exact absurd hgt hle
  · intro hnone
    refine ⟨es, hprove, accepted_empty hT hshape hL ?_ hfuel hnone⟩
    exact provides_putAll hinj hproves.sound hproves.complete

end Honest

/-- The trie with one leaf, from a key before it. -/
theorem honest_range_accepted_leafTrie : ∃ t es es' more, Opened keccak256 .nil t leafTrie ∧
      Prove keccak256 t [0x10] = .ok es ∧ Prove keccak256 t [0x12] = .ok es' ∧
      VerifyRangeProof keccak256 4 (rootHash keccak256 t).2 [0x10] [[0x12]]
        [[0x01]] (some (putAll emptyDb (es ++ es'))) = .ok more := by
  obtain ⟨t, hleaf⟩ := opened_leafTrie
  have hkey : ∀ {key v : Bytes}, leafTrie.lookup (keybytesToHex key) = some v →
      key = [0x12] ∧ v = [0x01] := by
    intro key v h
    obtain ⟨hhex, hv⟩ := lookup_leaf_eq_some h
    exact ⟨keybytesToHex_injective hhex, hv⟩
  have hrun : IsRun leafTrie [0x10] [0x12] [([0x12], [0x01])] := by
    refine ⟨pairwise_singleton _ _, rfl, fun key v => ?_⟩
    rw [mem_singleton, Prod.mk.injEq]
    constructor
    · rintro ⟨rfl, rfl⟩
      exact ⟨rfl, by decide, by decide⟩
    · exact fun h => hkey h.1
  obtain ⟨es, es', more, hes, hes', hmore⟩ :=
    (honest_range_accepted hleaf (by rintro ⟨⟩) (L := 1)
      (fun key v h => by rw [(hkey h).1]; rfl) injOn_leafTrie [0x10] rfl 4 (by decide)).1 _ _ hrun
  exact ⟨t, es, es', more, hleaf, hes, hes', hmore⟩

end GoEthereum.Trie

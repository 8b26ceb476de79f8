import GoEthereum.Trie.Session

/-!
# The node set as a difference of stores

A path database keeps the blob of every standalone node of a trie under the node's
path. The node set that `Commit` returns turns the store of the trie that was opened
into the store of the trie that was committed, with nothing missing and nothing left
over.
-/

namespace GoEthereum.Trie

open Keccak (keccak256)
open Radix (Tree)

variable {q : Path} {P : Path → Option Bytes} {T T₀ u : TrieTree}

section Diff

variable {keccak : Bytes → Hash}

/-- A store by path that holds exactly the standalone nodes of a trie. -/
def Holds (keccak : Bytes → Hash) (P : Path → Option Bytes) (T : TrieTree) : Prop :=
  ∀ q b, P q = some b ↔ ∃ u, StoreOf keccak T q u ∧ b = enc keccak u

/-- Writing the live entries of a node set and removing the paths of its deleted ones; no
node set changes nothing. -/
def applySet (nodes : Option NodeSet) (P : Path → Option Bytes) (q : Path) : Option Bytes :=
  match entriesOf nodes q with
  | none => P q
  | some n => if n.isDeleted then none else some n.blob

/-- A reader that finds the blobs of a store. -/
def ReadsFrom (keccak : Bytes → Hash) (reader : TrieReader) (P : Path → Option Bytes) : Prop :=
  ∀ q b, P q = some b → reader.node q (keccak b) = .ok b

theorem ReadsFrom.serves {reader : TrieReader} (h : ReadsFrom keccak reader P)
    (hP : Holds keccak P T) : Serves keccak (StoreOf keccak T) reader := by
  intro q u hu
  exact h q (enc keccak u) ((hP q _).mpr ⟨u, hu, rfl⟩)

theorem StoreOf.unique {u' : TrieTree} (h : StoreOf keccak T q u) (h' : StoreOf keccak T q u') :
    u' = u := by
  have := h.1.symm.trans h'.1
  cases this
  rfl

/-- Applying a difference leads from the store of one trie to that of the other. -/
theorem Diff.holds {nodes : Option NodeSet} (h : Diff keccak T₀ T (entriesOf nodes))
    (hP : Holds keccak P T₀) : Holds keccak (applySet nodes P) T := by
  intro q b
  by_cases hstored : ∃ u, StoreOf keccak T q u
  · obtain ⟨u, hu⟩ := hstored
    have happly : applySet nodes P q = some (enc keccak u) := by
      rw [applySet]
      rcases h.written hu with hlive | ⟨hold, hnone⟩
      · have hne : (live keccak u).isDeleted = false := by
          rw [SetNode.isDeleted, live, List.isEmpty_eq_false_iff]
          exact enc_ne_nil (Radix.Tree.isNode_of_nodeAt hu.1)
        rw [hlive]
        simp only [hne]
        rfl
      · rw [hnone]
        exact (hP q _).mpr ⟨u, hold, rfl⟩
    rw [happly, Option.some.injEq]
    constructor
    · rintro rfl
      exact ⟨u, hu, rfl⟩
    · rintro ⟨u', hu', rfl⟩
      rw [hu.unique hu']
  · rw [not_exists] at hstored
    have happly : applySet nodes P q = none := by
      rw [applySet]
      rcases h.quiet hstored with hnone | hdel
      · rw [hnone]
        show P q = none
        rw [Option.eq_none_iff_forall_ne_some]
        intro b hb
        obtain ⟨u, hu, -⟩ := (hP q b).mp hb
        rw [h.dropped hstored u hu] at hnone
        cases hnone
      · rw [hdel]
        rfl
    rw [happly]
    constructor
    · intro hnone
      cases hnone
    · rintro ⟨u, hu, -⟩
      exact absurd hu (hstored u)

/-- Calls on an opened trie that need no other database. -/
theorem Opened.run (ops : List Op) (hops : ∀ op ∈ ops, InMemory op) {s : Session}
    {m : Bytes → Option Bytes} (h : Opened keccak T₀ s.trie T)
    (hm : ∀ key, T.lookup (keybytesToHex key) = m key) :
    ∃ s' as T', Trie.run keccak s ops = .ok (s', as) ∧ Opened keccak T₀ s'.trie T' ∧
      ∀ key, T'.lookup (keybytesToHex key) = ops.foldl after m key := by
  induction ops generalizing s T m with
  | nil => exact ⟨s, [], T, rfl, h, hm⟩
  | cons op ops ih =>
    rw [List.forall_mem_cons] at hops
    obtain ⟨s₁, a, T₁, hstep, -, hopen, hlookup, -⟩ := h.call hm hops.1
    obtain ⟨s', as, T', hrun, hopen', hlookup'⟩ := ih hops.2 hopen hlookup
    refine ⟨s', a :: as, T', ?_, hopen', hlookup'⟩
    rw [Trie.run, hstep]
    simp only [hrun]

/-- **The node set is an exact difference.** Open a trie on a store that holds exactly its
standalone nodes, make any calls, and commit, with or without threads: applying the node
set to the store gives one that holds exactly the standalone nodes of the new trie. -/
theorem commit_is_exact_diff {T : TrieTree} (hT : TrieOk T) {P : Path → Option Bytes}
    (hP : Holds keccak P T) (id : ID) {db : Hash → Option NodeReader} {reader : TrieReader}
    (hreader : newTrieReader id.stateRoot id.owner db = .ok reader)
    (hreads : ReadsFrom keccak reader P) (hroot : id.root = treeHash keccak T)
    (hspecial : T ≠ .nil → id.root ≠ zeroHash ∧ id.root ≠ emptyRootHash)
    (ops : List Op) (hops : ∀ op ∈ ops, InMemory op) :
    ∃ t s as T', New id db = .ok t ∧ run keccak { trie := t, log := ∅ } ops = .ok (s, as) ∧
      TrieOf (ops.foldl after fun key => T.lookup (keybytesToHex key)) T' ∧
      ∀ schedule : Schedule, schedule.Ok → ∀ collectLeaf, ∃ t' nodes,
        commitWith keccak schedule s.trie collectLeaf = (t', some (treeHash keccak T', nodes)) ∧
        Holds keccak (applySet nodes P) T' := by
  obtain ⟨t, hnew, hopen⟩ := opened_new hT hreader hroot hspecial (hreads.serves hP)
  obtain ⟨s, as, T', hrun, hopen', hlookup⟩ :=
    Opened.run (s := { trie := t, log := ∅ }) ops hops hopen fun _ => rfl
  refine ⟨t, s, as, T', hnew, hrun, ⟨hopen'.ok, hlookup⟩, fun schedule hschedule leaf => ?_⟩
  obtain ⟨t', nodes, hcommit, hdiff⟩ := hopen'.commitWith hschedule leaf
  exact ⟨t', nodes, hcommit, hdiff.holds hP⟩

/-- The store of the trie with one leaf. -/
def leafStore (q : Path) : Option Bytes := if q = [] then some leafBlob else none

theorem storeOf_leafTrie : StoreOf keccak leafTrie q u ↔ q = [] ∧ u = leafTrie := by
  constructor
  · rintro ⟨hu, -⟩
    cases q with
    | nil =>
      cases hu
      exact ⟨rfl, rfl⟩
    | cons a q =>
      rw [leafTrie, Radix.Tree.nodeAt] at hu
      split at hu
      · cases hu
      · cases hu
  · rintro ⟨rfl, rfl⟩
    exact ⟨rfl, .inl rfl⟩

theorem holds_leafStore : Holds keccak leafStore leafTrie := by
  intro q b
  rw [leafStore]
  constructor
  · intro hb
    split at hb
    · rename_i hq
      cases hb
      exact ⟨leafTrie, storeOf_leafTrie.mpr ⟨hq, rfl⟩, rfl⟩
    · cases hb
  · rintro ⟨u, hu, rfl⟩
    obtain ⟨rfl, rfl⟩ := storeOf_leafTrie.mp hu
    rfl

/-- The entry is split off, then removed. -/
def splitHistory : List Op := [.update [0x12, 0x34] [0x07], .get [0x12], .delete [0x12]]

theorem commit_is_exact_diff_leaf : Holds keccak256 leafStore leafTrie ∧
      ∃ t s as T', New leafID leafDb = .ok t ∧
        run keccak256 { trie := t, log := ∅ } splitHistory = .ok (s, as) ∧
        T'.lookup (keybytesToHex [0x12, 0x34]) = some [0x07] ∧
        ∃ t' nodes, commitWith keccak256 (.parallel childSlots.reverse) s.trie true =
            (t', some (treeHash keccak256 T', nodes)) ∧
          Holds keccak256 (applySet nodes leafStore) T' := by
  refine ⟨holds_leafStore, ?_⟩
  have hT : TrieOk leafTrie := trieOk_nil.insert (by decide : KeyOk [0x12]) (by decide)
  have hreads : ReadsFrom keccak256
      { owner := zeroHash, reader := some fun _ _ _ => some leafBlob } leafStore := by
    intro q b hb
    rw [leafStore] at hb
    split at hb
    · cases hb
      rfl
    · cases hb
  obtain ⟨t, s, as, T', hnew, hrun, hT', hcommit⟩ := commit_is_exact_diff hT holds_leafStore
    leafID leafDb_reader hreads (treeHash_leafTrie keccak256).symm
    (fun _ => leafRoot_ne) splitHistory (by decide)
  obtain ⟨t', nodes, heq, hholds⟩ := hcommit (.parallel childSlots.reverse)
    (List.reverse_perm childSlots) true
  exact ⟨t, s, as, T', hnew, hrun, hT'.lookup [0x12, 0x34], t', nodes, heq, hholds⟩

end Diff

end GoEthereum.Trie

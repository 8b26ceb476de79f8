import GoEthereum.Lib.Keccak
import GoEthereum.Trie.Opened

/-!
# Histories of a trie

Sequences of calls on a trie, from the empty one on: updates, deletions, lookups,
hashing, copying, and committing followed by reopening the trie from a database. The
database may be another one each time; what it has to have is every node that was
committed so far. `lastValue` is the finite map such a history describes.
-/

namespace GoEthereum.Trie

open Keccak (keccak256)
open List

variable {m : Bytes → Option Bytes} {T T₀ : TrieTree}

variable {db : Hash → Option NodeReader} {order : List Nibble} {n : Node} {nodes : Option NodeSet}
  {p : Path} {S : Path → TrieTree → Prop} {t : TrieTree}

/-- A call. `commit` is `Commit` followed by `New`, with the order in which the threads
of a parallel commit finish. -/
inductive Op where
  | update (key value : Bytes)
  | delete (key : Bytes)
  | get (key : Bytes)
  | hash
  | copy
  | commit (collectLeaf : Bool) (order : List Nibble) (id : ID) (db : Hash → Option NodeReader)

/-- What a call returns. -/
inductive Answer where
  | done
  | value (v : Option Bytes)
  | hash (h : Hash)

variable {op : Op}

/-- A trie in use, and the nodes committed so far: path, hash and blob. -/
structure Session where
  trie : Trie
  log : Set (Path × Hash × Bytes)

/-- `NewEmpty`. -/
def newEmpty : Trie where
  root := .nil
  owner := zeroHash
  committed := false
  unhashed := 0
  uncommitted := 0
  reader := { owner := zeroHash, reader := none }
  tracer := newTracer

variable {s : Session}

def newSession : Session where
  trie := newEmpty
  log := ∅

/-- The nodes a commit has written. -/
def committedBy (nodes : Option NodeSet) : Set (Path × Hash × Bytes) :=
  { x | entriesOf nodes x.1 = some { hash := x.2.1, blob := x.2.2 } ∧ x.2.2 ≠ [] }

section Session

variable (keccak : Bytes → Hash)

/-- One call. -/
def step (s : Session) : Op → Except Err (Session × Answer)
  | .update key value =>
    match s.trie.Update key value with
    | (_, .error e) => .error e
    | (trie, .ok ()) => .ok ({ s with trie := trie }, .done)
  | .delete key =>
    match s.trie.Delete key with
    | (_, .error e) => .error e
    | (trie, .ok ()) => .ok ({ s with trie := trie }, .done)
  | .get key =>
    match s.trie.Get key with
    | (_, .error e) => .error e
    | (trie, .ok value) => .ok ({ s with trie := trie }, .value value)
  | .hash =>
    match rootHash keccak s.trie with
    | (trie, h) => .ok ({ s with trie := trie }, .hash h)
  | .copy => .ok ({ s with trie := s.trie.copy }, .done)
  | .commit collectLeaf order id db =>
    match Commit keccak order s.trie collectLeaf with
    | (_, none) => .error .panic
    | (_, some (root, nodes)) =>
      match New id db with
      | .error e => .error e
      | .ok trie => .ok ({ trie := trie, log := s.log ∪ committedBy nodes }, .hash root)

/-- A sequence of calls, up to the first that fails. -/
def run (s : Session) : List Op → Except Err (Session × List Answer)
  | [] => .ok (s, [])
  | op :: ops =>
    match step keccak s op with
    | .error e => .error e
    | .ok (s, a) =>
      match run s ops with
      | .error e => .error e
      | .ok (s, as) => .ok (s, a :: as)

/-- What the caller has to see to. Keys and values are slices. A trie is reopened at
the root its commit returned, from a database whose reader returns every committed node;
and the root of a trie that is not empty is not one of the two hashes that stand for
the empty trie. -/
def Admissible (s : Session) : Op → Prop
  | .update key value => KeyOk key ∧ value.length < 2 ^ 63
  | .delete key => KeyOk key
  | .get key => KeyOk key
  | .hash => True
  | .copy => True
  | .commit collectLeaf order id db =>
    order.Perm childSlots ∧ ∀ t root nodes,
      Commit keccak order s.trie collectLeaf = (t, some (root, nodes)) →
      id.root = root ∧
      (s.trie.root ≠ .nil → root ≠ zeroHash ∧ root ≠ emptyRootHash) ∧
      ∃ reader, newTrieReader id.stateRoot id.owner db = .ok reader ∧
        (s.trie.root ≠ .nil → ∀ x ∈ s.log ∪ committedBy nodes, reader.node x.1 x.2.1 = .ok x.2.2)

/-- Every call of a sequence is admissible where it is made. -/
def AdmissibleRun (s : Session) : List Op → Prop
  | [] => True
  | op :: ops => Admissible keccak s op ∧
      ∀ s' a, step keccak s op = .ok (s', a) → AdmissibleRun s' ops

end Session

/-! ## The map of a history -/

/-- What a call writes under a key, if it writes there: a value, or nothing. -/
def writes (key : Bytes) : Op → Option (Option Bytes)
  | .update key' value =>
    if key' = key then some (if value = [] then none else some value) else none
  | .delete key' => if key' = key then some none else none
  | _ => none

/-- The value of the last update of a key, unless a deletion came after it. -/
def lastValue (ops : List Op) (key : Bytes) : Option Bytes :=
  (ops.reverse.findSome? (writes key)).join

theorem lastValue_concat (ops : List Op) (op : Op) (key : Bytes) : lastValue (ops ++ [op]) key =
      match writes key op with
      | some v => v
      | none => lastValue ops key := by
  rw [lastValue, reverse_append, reverse_singleton, singleton_append, findSome?_cons]
  cases writes key op with
  | none => rfl
  | some v => rfl

/-- A trie for a map. -/
structure TrieOf (m : Bytes → Option Bytes) (T : TrieTree) : Prop where
  ok : TrieOk T
  lookup : ∀ key, T.lookup (keybytesToHex key) = m key

/-- There is at most one. -/
theorem TrieOf.unique {T' : TrieTree} (h : TrieOf m T) (h' : TrieOf m T') : T' = T := by
  refine Radix.Tree.Fits.eq_of_lookup h'.ok.fits h'.ok.minimal h.ok.fits h.ok.minimal fun k _ => ?_
  have hhex : ∀ {U : TrieTree}, TrieOk U → (∀ key, k ≠ keybytesToHex key) → U.lookup k = none := by
    intro U hU hk
    rw [Option.eq_none_iff_forall_ne_some]
    intro v hv
    obtain ⟨key, hkey⟩ := hU.keys hv
    exact hk key hkey
  by_cases hk : ∃ key, k = keybytesToHex key
  · obtain ⟨key, rfl⟩ := hk
    rw [h.lookup, h'.lookup]
  · rw [not_exists] at hk
    rw [hhex h.ok hk, hhex h'.ok hk]

section Runs

variable {keccak : Bytes → Hash}

/-- A session whose trie is the trie of a map, opened on a trie all of whose nodes have
been committed. -/
structure SessionOk (keccak : Bytes → Hash) (s : Session) (m : Bytes → Option Bytes)
    (T₀ T : TrieTree) : Prop where
  opened : Opened keccak T₀ s.trie T
  stored : ∀ {q : Path} {u : TrieTree}, StoreOf keccak T₀ q u →
    (q, keccak (enc keccak u), enc keccak u) ∈ s.log
  lookup : ∀ key, T.lookup (keybytesToHex key) = m key

/-- The answer to a call, when the map is `m`. -/
def Answers (keccak : Bytes → Hash) (T : TrieTree) (m : Bytes → Option Bytes) (op : Op)
    (a : Answer) : Prop :=
  match op with
  | .get key => a = .value (m key)
  | .hash => a = .hash (treeHash keccak T)
  | .commit _ _ _ _ => a = .hash (treeHash keccak T)
  | _ => a = .done

/-- The map after a call. -/
def after (m : Bytes → Option Bytes) (op : Op) (key : Bytes) : Option Bytes :=
  match writes key op with
  | some v => v
  | none => m key

theorem lookup_after_delete (hT : TrieOk T) (hm : ∀ key, T.lookup (keybytesToHex key) = m key)
    (key key' : Bytes) :
    (without T (keybytesToHex key)).lookup (keybytesToHex key') = after m (.delete key) key' := by
  rw [lookup_without hT, hm, after, writes]
  by_cases hkey : key' = key
  · rw [if_pos hkey, if_pos hkey.symm]
  · rw [if_neg hkey, if_neg (Ne.symm hkey)]

theorem lookup_after_update (hT : TrieOk T) (hm : ∀ key, T.lookup (keybytesToHex key) = m key)
    (key v key' : Bytes) :
    (updated T key v).lookup (keybytesToHex key') = after m (.update key v) key' := by
  rw [updated, after, writes]
  by_cases hv : v = []
  · rw [if_pos hv, if_pos hv, lookup_after_delete hT hm key key', after, writes]
  · rw [if_neg hv, if_neg hv, lookup_insert_key hT, hm]
    by_cases hkey : key' = key
    · rw [if_pos hkey, if_pos hkey.symm]
    · rw [if_neg hkey, if_neg (Ne.symm hkey)]

/-- Calls that need no database. -/
def InMemory : Op → Prop
  | .update key v => KeyOk key ∧ v.length < 2 ^ 63
  | .delete key => KeyOk key
  | .get key => KeyOk key
  | .commit _ _ _ _ => False
  | _ => True

instance decidableInMemory (op : Op) : Decidable (InMemory op) := by
  unfold InMemory
  split <;> infer_instance

/-- Such a call succeeds, answers what the map says and changes the map as it should. -/
theorem Opened.call (h : Opened keccak T₀ s.trie T)
    (hm : ∀ key, T.lookup (keybytesToHex key) = m key) (hop : InMemory op) :
    ∃ s' a T', Trie.step keccak s op = .ok (s', a) ∧ s'.log = s.log ∧ Opened keccak T₀ s'.trie T' ∧
      (∀ key, T'.lookup (keybytesToHex key) = after m op key) ∧ Answers keccak T m op a := by
  cases op with
  | commit => exact absurd hop id
  | update key v =>
    obtain ⟨t', heq, hopen⟩ := h.update hop.1 hop.2
    rw [Trie.step, heq]
    exact ⟨_, _, _, rfl, rfl, hopen, lookup_after_update h.ok hm key v, rfl⟩
  | delete key =>
    obtain ⟨t', heq, hopen⟩ := h.delete key
    rw [Trie.step, heq]
    exact ⟨_, _, _, rfl, rfl, hopen, lookup_after_delete h.ok hm key, rfl⟩
  | get key =>
    obtain ⟨t', heq, hopen⟩ := h.get key
    rw [Trie.step, heq, hm]
    exact ⟨_, _, T, rfl, rfl, hopen, hm, rfl⟩
  | hash =>
    obtain ⟨t', heq, hopen, -⟩ := h.rootHash
    rw [Trie.step, heq]
    exact ⟨_, _, T, rfl, rfl, hopen, hm, rfl⟩
  | copy =>
    rw [Trie.step, copy_eq]
    exact ⟨_, _, T, rfl, rfl, h, hm, rfl⟩

theorem Admissible.inMemory (h : Admissible keccak s op)
    (hop : ∀ collectLeaf order id db, op ≠ .commit collectLeaf order id db) : InMemory op := by
  cases op with
  | commit => exact absurd rfl (hop _ _ _ _)
  | update => exact h
  | delete => exact h
  | get => exact h
  | hash => trivial
  | copy => trivial

/-- After a commit every standalone node of the trie has been committed. -/
theorem SessionOk.stored_after_commit (h : SessionOk keccak s m T₀ T)
    (hdiff : Diff keccak T₀ T (entriesOf nodes)) {q : Path} {u : TrieTree}
    (hu : StoreOf keccak T q u) :
    (q, keccak (enc keccak u), enc keccak u) ∈ s.log ∪ committedBy nodes := by
  rcases hdiff.written hu with hlive | ⟨hold, -⟩
  · exact .inr ⟨hlive, enc_ne_nil (Radix.Tree.isNode_of_nodeAt hu.1)⟩
  · exact .inl (h.stored hold)

/-- Reopening a trie that has been committed. -/
theorem SessionOk.commit (h : SessionOk keccak s m T₀ T) {collectLeaf : Bool} {id : ID}
    (hop : Admissible keccak s (.commit collectLeaf order id db)) :
    ∃ s', Trie.step keccak s (.commit collectLeaf order id db) =
        .ok (s', .hash (treeHash keccak T)) ∧ SessionOk keccak s' m T T := by
  obtain ⟨t', nodes, heq, hdiff⟩ := h.opened.commit hop.1 collectLeaf
  obtain ⟨hroot, hspecial, reader, hreader, hserves⟩ := hop.2 t' _ nodes heq
  have hnil : T ≠ .nil → s.trie.root ≠ .nil := by
    intro hT hroot
    have hrep := h.opened.rep
    rw [hroot] at hrep
    exact hT hrep.nil_tree
  have hserves' : Serves keccak (StoreOf keccak T) reader := by
    intro q u hu
    refine hserves (hnil ?_) _ (h.stored_after_commit hdiff hu)
    rintro rfl
    cases hu.1
  obtain ⟨t, hnew, hopen⟩ := opened_new h.opened.ok hreader hroot
    (fun hT => by rw [hroot]; exact hspecial (hnil hT)) hserves'
  rw [Trie.step, heq]
  simp only [hnew]
  exact ⟨_, rfl, hopen, fun hu => h.stored_after_commit hdiff hu, h.lookup⟩

/-- An admissible call succeeds, answers what the map says and changes the map as it
should. -/
theorem SessionOk.step (h : SessionOk keccak s m T₀ T) (hop : Admissible keccak s op) :
    ∃ s' a T₀' T', step keccak s op = .ok (s', a) ∧ SessionOk keccak s' (after m op) T₀' T' ∧
      Answers keccak T m op a := by
  by_cases hcommit : ∃ collectLeaf order id db, op = .commit collectLeaf order id db
  · obtain ⟨collectLeaf, order, id, db, rfl⟩ := hcommit
    obtain ⟨s', hstep, hok⟩ := h.commit hop
    exact ⟨s', _, T, T, hstep, hok, rfl⟩
  have hmem : InMemory op := hop.inMemory fun collectLeaf order id db heq =>
    hcommit ⟨collectLeaf, order, id, db, heq⟩
  obtain ⟨s', a, T', hstep, hlog, hopen, hlookup, hans⟩ := h.opened.call h.lookup hmem
  refine ⟨s', a, T₀, T', hstep, ⟨hopen, fun hu => ?_, hlookup⟩, hans⟩
  rw [hlog]
  exact h.stored hu

theorem sessionOk_new : SessionOk keccak newSession (lastValue []) .nil .nil where
  opened := by
    refine ⟨.nil [], trieOk_nil, ?_, rfl, fun q => ?_, (fun h => by cases h), ?_⟩
    · rintro p t ⟨ht, -⟩
      cases ht
    · simp [Tracks, newSession, newEmpty, newTracer]
    · rintro r u ⟨hu, -⟩
      cases hu
  stored hu := by cases hu.1
  lookup _ := rfl

theorem after_lastValue (ops : List Op) (op : Op) :
    after (lastValue ops) op = lastValue (ops ++ [op]) := by
  funext key
  rw [lastValue_concat, after]

theorem foldl_after_lastValue (ops past : List Op) :
    ops.foldl after (lastValue past) = lastValue (past ++ ops) := by
  induction ops generalizing past with
  | nil => rw [append_nil, foldl_nil]
  | cons op ops ih =>
    rw [foldl_cons, after_lastValue, ih, append_assoc, singleton_append]

/-- A whole history: it succeeds, the trie at its end is the trie of its map, and every
lookup in it returned what the map was at that moment. -/
theorem run_spec (ops : List Op) {past : List Op} (h : SessionOk keccak s (lastValue past) T₀ T)
    (hops : AdmissibleRun keccak s ops) :
    ∃ s' as T₀' T', run keccak s ops = .ok (s', as) ∧
      SessionOk keccak s' (lastValue (past ++ ops)) T₀' T' ∧
      ∀ (i : Nat) (key : Bytes), ops[i]? = some (Op.get key) →
        as[i]? = some (.value (lastValue (past ++ ops.take i) key)) := by
  induction ops generalizing s past T₀ T with
  | nil =>
    refine ⟨s, [], T₀, T, rfl, ?_, fun i key hi => ?_⟩
    · rw [append_nil]
      exact h
    · rw [getElem?_nil] at hi
      cases hi
  | cons op ops ih =>
    obtain ⟨s₁, a, T₁, T', hstep, hok, hans⟩ := h.step hops.1
    rw [after_lastValue] at hok
    obtain ⟨s', as, T₀', T'', hrun, hok', hgets⟩ := ih hok (hops.2 s₁ a hstep)
    have hassoc : ∀ l, past ++ [op] ++ l = past ++ op :: l := fun l => by
      rw [append_assoc, singleton_append]
    rw [hassoc] at hok'
    refine ⟨s', a :: as, T₀', T'', ?_, hok', fun i key hi => ?_⟩
    · rw [run, hstep]
      simp only [hrun]
    · cases i with
      | zero =>
        rw [getElem?_cons_zero, Option.some.injEq] at hi
        subst hi
        rw [getElem?_cons_zero, take_zero, append_nil, hans]
      | succ i =>
        rw [getElem?_cons_succ] at hi ⊢
        rw [take_succ_cons, ← hassoc]
        exact hgets i key hi

/-- What a commit has written are the standalone nodes of the trie. -/
theorem mem_committedBy (hdiff : Diff keccak T₀ T (entriesOf nodes)) {x : Path × Hash × Bytes}
    (hx : x ∈ committedBy nodes) :
    ∃ u, StoreOf keccak T x.1 u ∧ x.2.1 = keccak (enc keccak u) ∧ x.2.2 = enc keccak u := by
  obtain ⟨hentry, hblob⟩ := hx
  by_cases hstored : ∃ u, StoreOf keccak T x.1 u
  · obtain ⟨u, hu⟩ := hstored
    refine ⟨u, hu, ?_⟩
    rcases hdiff.written hu with hlive | ⟨-, hnone⟩
    · rw [hlive, Option.some.injEq, live, SetNode.mk.injEq] at hentry
      exact ⟨hentry.1.symm, hentry.2.symm⟩
    · rw [hnone] at hentry
      cases hentry
  · rw [not_exists] at hstored
    rcases hdiff.quiet hstored with hnone | hdel
    · rw [hnone] at hentry
      cases hentry
    · rw [hdel, Option.some.injEq, newDeleted, SetNode.mk.injEq] at hentry
      exact absurd hentry.2.symm hblob

/-- When a trie may be committed and reopened: at its root, from a reader that has what
was committed before and the nodes of the trie. -/
theorem SessionOk.admissible_commit (h : SessionOk keccak s m T₀ T) (horder : order.Perm childSlots)
    (id : ID) {reader : TrieReader} (hreader : newTrieReader id.stateRoot id.owner db = .ok reader)
    (hroot : id.root = treeHash keccak T) (hspecial : id.root ≠ zeroHash ∧ id.root ≠ emptyRootHash)
    (hlog : ∀ x ∈ s.log, reader.node x.1 x.2.1 = .ok x.2.2)
    (hserves : Serves keccak (StoreOf keccak T) reader) (collectLeaf : Bool) :
    Admissible keccak s (.commit collectLeaf order id db) := by
  refine ⟨horder, fun t root nodes hcommit => ?_⟩
  obtain ⟨t', nodes', heq, hdiff⟩ := h.opened.commit horder collectLeaf
  rw [heq, Prod.mk.injEq, Option.some.injEq, Prod.mk.injEq] at hcommit
  obtain ⟨-, rfl, rfl⟩ := hcommit
  refine ⟨hroot, fun _ => hroot ▸ hspecial, reader, hreader, fun _ x hx => ?_⟩
  rcases hx with hx | hx
  · exact hlog x hx
  · obtain ⟨u, hu, hhash, hblob⟩ := mem_committedBy hdiff hx
    rw [hhash, hblob]
    exact hserves x.1 u hu

theorem admissibleRun_of_inMemory (ops : List Op) (h : ∀ op ∈ ops, InMemory op)
    (s : Session) : AdmissibleRun keccak s ops := by
  induction ops generalizing s with
  | nil => trivial
  | cons op ops ih =>
    rw [forall_mem_cons] at h
    refine ⟨?_, fun s' a _ => ih h.2 s'⟩
    have hop := h.1
    cases op with
    | commit => exact absurd hop id
    | update key v => exact hop
    | delete key => exact hop
    | get key => exact hop
    | hash => trivial
    | copy => trivial

/-- **A trie is a finite map.** Every call of an admissible history succeeds, and every
lookup returns the value of the last update of its key that no deletion followed. -/
theorem run_is_finite_map (ops : List Op) (h : AdmissibleRun keccak newSession ops) :
    ∃ s as, run keccak newSession ops = .ok (s, as) ∧
      ∀ (i : Nat) (key : Bytes), ops[i]? = some (Op.get key) →
        as[i]? = some (.value (lastValue (ops.take i) key)) := by
  obtain ⟨s, as, -, -, hrun, -, hgets⟩ := run_spec ops sessionOk_new h
  exact ⟨s, as, hrun, hgets⟩

/-- The trie with the one entry `12 ↦ 01`, and its root. -/
def leafTrie : TrieTree := .short (keybytesToHex [0x12]) (.value [0x01])

def leafBlob : Bytes := [0xc4, 0x82, 0x20, 0x12, 0x01]

def leafRoot : Hash := keccak256 leafBlob

def leafID : ID where
  stateRoot := leafRoot
  owner := zeroHash
  root := leafRoot

/-- A database with this trie. -/
def leafDb : Hash → Option NodeReader := fun _ => some fun _ _ _ => some leafBlob

theorem enc_leafTrie (keccak : Bytes → Hash) : enc keccak leafTrie = leafBlob := rfl

theorem treeHash_leafTrie (keccak : Bytes → Hash) : treeHash keccak leafTrie = keccak leafBlob := by
  rw [treeHash, if_neg (by decide), enc_leafTrie]

theorem leafRoot_ne : leafRoot ≠ zeroHash ∧ leafRoot ≠ emptyRootHash := by
  decide +kernel

theorem leafDb_reader : newTrieReader leafRoot zeroHash leafDb =
    .ok { owner := zeroHash, reader := some fun _ _ _ => some leafBlob } := by
  rw [newTrieReader, if_neg (not_or.mpr leafRoot_ne)]
  rfl

/-- Update, commit, reopen, look up. -/
def leafHistory : List Op :=
  [.update [0x12] [0x01], .commit true childSlots leafID leafDb, .get [0x12]]

theorem admissibleRun_leafHistory : AdmissibleRun keccak256 newSession leafHistory := by
  have hkey : KeyOk [0x12] := by decide
  refine ⟨⟨hkey, by decide⟩, fun s₁ a hstep => ⟨?_, fun s₂ b _ => ⟨hkey, fun _ _ _ => trivial⟩⟩⟩
  -- the session after the update holds the trie with one leaf
  have hnew := @sessionOk_new keccak256
  obtain ⟨t, heq, hopen⟩ := hnew.opened.update hkey (by decide : [(0x01 : UInt8)].length < 2 ^ 63)
  rw [step, heq] at hstep
  cases hstep
  have hok : SessionOk keccak256 { newSession with trie := t } _ .nil leafTrie :=
    ⟨hopen, hnew.stored, lookup_after_update hnew.opened.ok hnew.lookup [0x12] [0x01]⟩
  have hroot : leafRoot = treeHash keccak256 leafTrie :=
    (treeHash_leafTrie keccak256).symm
  refine hok.admissible_commit (List.Perm.refl _) leafID leafDb_reader hroot leafRoot_ne
    (fun x hx => absurd hx (Set.notMem_empty x)) ?_ true
  rintro p u ⟨hu, -⟩
  have hleaf : u = leafTrie := by
    cases p with
    | nil =>
      cases hu
      rfl
    | cons a p =>
      rw [leafTrie, Radix.Tree.nodeAt] at hu
      split at hu
      · cases hu
      · cases hu
  rw [hleaf, enc_leafTrie]
  rfl

theorem run_is_finite_map_leafHistory : AdmissibleRun keccak256 newSession leafHistory ∧
      ∃ s as, run keccak256 newSession leafHistory = .ok (s, as) ∧
        as[2]? = some (.value (some [0x01])) := by
  obtain ⟨s, as, hrun, hgets⟩ := run_is_finite_map leafHistory admissibleRun_leafHistory
  exact ⟨admissibleRun_leafHistory, s, as, hrun, hgets 2 [0x12] rfl⟩

/-! ## The canonical form -/

/-- The form of the nodes in memory: a branch has two occupied slots, a short node a word
and no short node below it, and a cached hash is the one computed from scratch. -/
def Canonical (keccak : Bytes → Hash) : Node → Prop
  | .short k val f =>
    k ≠ [] ∧ (∀ k' val' f', val ≠ .short k' val' f') ∧
    (∀ h, f.hash = some h → (hash keccak (Node.short k val f).strip true).1 = .hash h) ∧
    Canonical keccak val
  | .full children f =>
    (∃ i j, i ≠ j ∧ children i ≠ .nil ∧ children j ≠ .nil) ∧
    (∀ h, f.hash = some h → (hash keccak (Node.full children f).strip true).1 = .hash h) ∧
    ∀ i, Canonical keccak (children i)
  | _ => True

theorem Rep.ne_nil (h : Rep keccak S p n t) (ht : t ≠ .nil) : n ≠ .nil := by
  rintro rfl
  exact ht h.nil_tree

theorem Rep.canonical (h : Rep keccak S p n t) {N : Nat} (ht : TrieShape N t) (hmin : t.Minimal) :
    Canonical keccak n := by
  have hcache : ∀ {p : Path} {n : Node} {t : TrieTree} {N : Nat} {f : NodeFlag},
      Rep keccak S p n t → TrieShape N t → FlagsOk keccak S p t f → ∀ h, f.hash = some h →
      (Trie.hash keccak n.strip true).1 = .hash h := by
    intro p n t N f hrep ht hf h hh
    rw [hash_strip hrep ht, (hf.hash h hh).1]
  induction h generalizing N with
  | nil => trivial
  | value p v => trivial
  | hash => trivial
  | @short p k n t f hn hf hset ih =>
    refine ⟨ht.word.2, ?_, hcache (.short hn hf hset) ht hf, ?_⟩
    · rintro k' val' f' rfl
      cases ht with
      | leaf => cases hn
      | ext => cases hn
    · cases ht with
      | leaf =>
        rw [hn.value_node]
        trivial
      | ext _ _ _ hts => exact ih hts hmin
  | @full p ns ts f hns hf hset ih =>
    obtain ⟨⟨i, j, hij, hi, hj⟩, hkids⟩ := hmin
    refine ⟨⟨i, j, hij, (hns i).ne_nil hi, (hns j).ne_nil hj⟩,
      hcache (.full hns hf hset) ht hf, fun i => ?_⟩
    by_cases hi : i = term
    · subst hi
      have hslot := hns term
      rcases ht.valueSlot with hnil | ⟨v, -, hv⟩
      · rw [hnil] at hslot
        rw [hslot.nil_node]
        trivial
      · rw [hv] at hslot
        rw [hslot.value_node]
        trivial
    · rcases ht.slot hi with hnil | hshape
      · have hslot := hns i
        rw [hnil] at hslot
        rw [hslot.nil_node]
        trivial
      · exact ih i hshape (hkids i)

theorem SessionOk.canonical (h : SessionOk keccak s m T₀ T) : Canonical keccak s.trie.root := by
  have hrep := h.opened.rep
  rcases h.opened.ok.fits with rfl | hshape
  · rw [hrep.nil_node]
    trivial
  · exact hrep.canonical hshape h.opened.ok.minimal

/-- **The root hash depends on the content only.** Two admissible histories with the same
content lead to tries with the same root hash: that of the only minimal trie with this
content, computed from scratch. The nodes they leave in memory are in canonical form. -/
theorem rootHash_of_content (ops ops' : List Op) (h : AdmissibleRun keccak newSession ops)
    (h' : AdmissibleRun keccak newSession ops')
    (hcontent : ∀ key, lastValue ops key = lastValue ops' key) :
    ∃ s as s' as' T, run keccak newSession ops = .ok (s, as) ∧
      run keccak newSession ops' = .ok (s', as') ∧
      (TrieOf (lastValue ops) T ∧ ∀ T', TrieOf (lastValue ops) T' → T' = T) ∧
      ((rootHash keccak s.trie).2 = treeHash keccak T ∧
        (rootHash keccak s'.trie).2 = treeHash keccak T) ∧
      (rehash keccak s.trie = treeHash keccak T ∧ rehash keccak s'.trie = treeHash keccak T) ∧
      Canonical keccak s.trie.root ∧ Canonical keccak s'.trie.root := by
  obtain ⟨s, as, T₀, T, hrun, hok, -⟩ := run_spec ops sessionOk_new h
  obtain ⟨s', as', T₀', T', hrun', hok', -⟩ := run_spec ops' sessionOk_new h'
  have hT : TrieOf (lastValue ops) T := ⟨hok.opened.ok, hok.lookup⟩
  have hT' : TrieOf (lastValue ops) T' := by
    refine ⟨hok'.opened.ok, fun key => ?_⟩
    rw [hcontent key]
    exact hok'.lookup key
  have heq := hT.unique hT'
  subst heq
  obtain ⟨t, hhash, -⟩ := hok.opened.rootHash
  obtain ⟨t', hhash', -⟩ := hok'.opened.rootHash
  refine ⟨s, as, s', as', T', hrun, hrun', ⟨hT, fun U hU => hT.unique hU⟩, ⟨?_, ?_⟩,
    ⟨rehash_eq hok.opened.rep hok.opened.ok.fits,
      rehash_eq hok'.opened.rep hok'.opened.ok.fits⟩, hok.canonical, hok'.canonical⟩
  · rw [hhash]
  · rw [hhash']

/-- Another history with the same content. -/
def rewriteHistory : List Op :=
  [.update [0x12, 0x34] [0x07], .update [0x12] [0x02], .hash, .delete [0x12, 0x34], .copy,
    .update [0x12] [0x01]]

theorem rootHash_of_content_histories :
    ∃ s as s' as', run keccak256 newSession leafHistory = .ok (s, as) ∧
      run keccak256 newSession rewriteHistory = .ok (s', as') ∧
      (rootHash keccak256 s.trie).2 = (rootHash keccak256 s'.trie).2 := by
  have hrewrite : AdmissibleRun keccak256 newSession rewriteHistory := by
    exact admissibleRun_of_inMemory rewriteHistory (by decide) newSession
  have hcontent : ∀ key, lastValue leafHistory key = lastValue rewriteHistory key := by
    intro key
    by_cases hkey : [0x12] = key
    · simp [lastValue, leafHistory, rewriteHistory, writes, hkey, findSome?_cons]
    · by_cases hkey' : [0x12, 0x34] = key
      · simp [lastValue, leafHistory, rewriteHistory, writes, hkey, hkey', findSome?_cons]
      · simp [lastValue, leafHistory, rewriteHistory, writes, hkey, hkey', findSome?_cons]
  obtain ⟨s, as, s', as', T, hrun, hrun', -, ⟨hhash, hhash'⟩, -⟩ :=
    rootHash_of_content leafHistory rewriteHistory admissibleRun_leafHistory hrewrite hcontent
  exact ⟨s, as, s', as', hrun, hrun', hhash.trans hhash'.symm⟩

end Runs

end GoEthereum.Trie

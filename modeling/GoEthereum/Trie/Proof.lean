import GoEthereum.Trie.Diff

/-!
# Merkle proofs

`Prove` and `VerifyProof` of `trie/proof.go`. `Prove` writes the nodes on the way to a
key into a database, each under its hash; those that are embedded in their parent are
left out. `VerifyProof` starts at the root hash and follows the key through the blobs
of a database that anybody may have filled. The loop of `VerifyProof` has no bound of
its own, so it is given one here.

The hash caches that `proofHash` fills below the nodes it is given are not modelled:
they change nothing that can be observed.
-/

namespace GoEthereum.Trie

open Keccak (keccak256)
open List

variable {m : Node} {k p : Path} {T u w : TrieTree}

variable {h : Hash} {es : List (Hash × Bytes)} {ms : List Node} {n : Node} {rest : Path}

/-- A database with the nodes of a proof (`ethdb.KeyValueReader`). -/
abbrev ProofDb : Type := Hash → Option Bytes

/-- What verifying a proof can end with. -/
inductive ProofErr where
  | missingAt (i : Nat) (hash : Hash)      -- proof node … (hash …) missing
  | badAt (i : Nat) (e : DecodeError)      -- bad proof node …: …
  | missing (hash : Hash)                  -- proof node (hash …) missing
  | bad (e : DecodeError)                  -- bad proof node …
  | notContained                           -- the node is not contained in trie
  | emptyRange                             -- empty range
  | lengths (keys values : Nat)            -- inconsistent proof data, keys: …, values: …
  | notIncreasing                          -- range is not monotonically increasing
  | pathPrefixes                           -- range contains path prefixes
  | deletion                               -- range contains deletion
  | wrongHash (want got : Hash)            -- invalid proof, want hash …, got …
  | moreEntries                            -- more entries available
  | invalidKey                             -- correct proof but invalid key
  | invalidData                            -- correct proof but invalid data
  | invalidEdges                           -- invalid edge keys
  | edgeLengths                            -- inconsistent edge keys
  | panic                                  -- a run-time panic
  | fuel

variable {db : ProofDb}

namespace Proof

/-- `get` of `proof.go`: the child of a node for a key, and the rest of the key. With
`skipResolved` it goes on until it meets a hash, a value or nothing. -/
def get : Node → Path → Bool → Option (Path × Node)
  | .short k val _, key, skipResolved =>
    if k <+: key then
      if skipResolved then get val (key.drop k.length) skipResolved
      else some (key.drop k.length, val)
    else some ([], .nil)
  -- an index out of range
  | .full _ _, [], _ => none
  | .full children _, a :: key, skipResolved =>
    if skipResolved then get (children a) key skipResolved else some (key, children a)
  | .hash h, key, _ => some (key, .hash h)
  | .nil, key, _ => some (key, .nil)
  | .value v, _, _ => some ([], .value v)

end Proof

/-! ## `Prove` -/

/-- The loop of `Prove` that collects the nodes on the way to a key. -/
def pathNodes (r : TrieReader) : Nat → Node → Path → Path → Except Err (List Node)
  | 0, _, _, _ => .error .fuel
  | _ + 1, _, _, [] => .ok []
  | _ + 1, .nil, _, _ :: _ => .ok []
  | fuel + 1, .short k val f, path, a :: key =>
    if k <+: a :: key then
      match pathNodes r fuel val (path ++ k) ((a :: key).drop k.length) with
      | .error e => .error e
      | .ok nodes => .ok (.short k val f :: nodes)
    else .ok [.short k val f]
  | fuel + 1, .full children f, path, a :: key =>
    match pathNodes r fuel (children a) (path ++ [a]) key with
    | .error e => .error e
    | .ok nodes => .ok (.full children f :: nodes)
  | fuel + 1, .hash h, path, a :: key =>
    match r.node path h with
    | .error e => .error e
    | .ok blob =>
      match decodeNode (some h) blob with
      -- mustDecodeNodeUnsafe
      | .error _ => .error .panic
      | .ok n => pathNodes r fuel n path (a :: key)
  | _ + 1, .value _, _, _ :: _ => .error .panic

section Prove

variable (keccak : Bytes → Hash)

/-- `hashShortNodeChildren` and `hashFullNodeChildren`. -/
def hashChildren : Node → Collapsed
  | .short k val _ => .short (hexToCompact k) (hash keccak val false).1
  | .full children _ =>
    .full fun i =>
      if i = term then (children i).raw
      -- nilValueNode
      else if (children i).isNil then .value []
      else (hash keccak (children i) false).1
  | n => n.raw

/-- `proofHash`: the collapsed node, and its hash unless it is small. -/
def proofHash : Node → Collapsed × Collapsed
  | .short k val f =>
    let collapsed := hashChildren keccak (.short k val f)
    (collapsed, nodeToHash keccak collapsed false)
  | .full children f =>
    let collapsed := hashChildren keccak (.full children f)
    (collapsed, nodeToHash keccak collapsed false)
  | n => (n.raw, n.raw)

/-- What `Prove` writes for the nodes it has collected, the `i`-th and the following. -/
def proofEntries : Nat → List Node → List (Hash × Bytes)
  | _, [] => []
  | i, n :: nodes =>
    match proofHash keccak n with
    | (c, .hash h) => (h, c.encode) :: proofEntries (i + 1) nodes
    | (c, _) =>
      if i = 0 then (keccak c.encode, c.encode) :: proofEntries (i + 1) nodes
      else proofEntries (i + 1) nodes

/-- `Prove`: the entries it puts into the database, in order. -/
def Prove (t : Trie) (key : Bytes) : Except Err (List (Hash × Bytes)) :=
  if t.committed then .error .committed
  else
    let k := keybytesToHex key
    match pathNodes t.reader (fuelFor k) t.root [] k with
    | .error e => .error e
    | .ok nodes => .ok (proofEntries keccak 0 nodes)

end Prove

/-- A database after some entries have been put into it. -/
def putAll (db : ProofDb) (entries : List (Hash × Bytes)) : ProofDb :=
  entries.foldl (fun db e => Function.update db e.1 (some e.2)) db

/-- The empty database (`memorydb.New`). -/
def emptyDb : ProofDb := fun _ => none

/-! ## `VerifyProof` -/

/-- The loop of `VerifyProof`, from the `i`-th proof node on. -/
def verifyLoop (db : ProofDb) : Nat → Nat → Hash → Path → Except ProofErr (Option Bytes)
  | 0, _, _, _ => .error .fuel
  | fuel + 1, i, wantHash, key =>
    match db wantHash with
    | none => .error (.missingAt i wantHash)
    | some buf =>
      match decodeNode (some wantHash) buf with
      | .error e => .error (.badAt i e)
      | .ok n =>
        match Proof.get n key true with
        | none => .error .panic
        | some (_, .nil) => .ok none
        | some (keyrest, .hash h) => verifyLoop db fuel (i + 1) h keyrest
        | some (_, .value v) => .ok (some v)
        -- no case of the switch
        | some (_, _) => verifyLoop db fuel (i + 1) wantHash key

/-- `VerifyProof` in at most `fuel` rounds. -/
def VerifyProof (fuel : Nat) (rootHash : Hash) (key : Bytes) (proofDb : ProofDb) :
    Except ProofErr (Option Bytes) :=
  verifyLoop proofDb fuel 0 rootHash (keybytesToHex key)

open Radix (Tree Terminated)
open Radix.Tree

section Verify

variable {keccak : Bytes → Hash}

/-! ## Following a key through a decoded node -/

/-- Where `Proof.get` stops in the nodes of a tree: at the entry, or at the hash of a
node that is stored apart, further on towards the key. -/
inductive Stops (keccak : Bytes → Hash) (u : TrieTree) (k : Path) : Option (Path × Node) → Prop
  | absent {rest : Path} : u.lookup k = none → Stops keccak u k (some (rest, .nil))
  | found {rest : Path} {v : Bytes} : u.lookup k = some v → Stops keccak u k (some (rest, .value v))
  | hash {r rest : Path} {w : TrieTree} : k = r ++ rest → u.nodeAt r = some w →
      32 ≤ (enc keccak w).length → u.lookup k = w.lookup rest →
      Stops keccak u k (some (rest, .hash (keccak (enc keccak w))))

/-- Into a child that is a reference. -/
theorem stops_refNode {N : Nat} (hu : Slot N u k)
    (hfirst : u.isNode = true → Stops keccak u k (Proof.get (firstNode keccak none u) k true)) :
    Stops keccak u k (Proof.get (refNode keccak u) k true) := by
  by_cases ha : apart u (enc keccak u) = true
  · rw [refNode_of_apart ha]
    obtain ⟨hnode, hlen⟩ := apart_iff.mp ha
    exact .hash (r := []) rfl (nodeAt_self hnode) hlen rfl
  rw [refNode_of_not_apart ha]
  cases hnode : u.isNode with
  | true => exact hfirst hnode
  | false =>
    cases u with
    | nil => exact .absent rfl
    | value v =>
      obtain ⟨rfl, -⟩ := hu.value
      exact .found rfl
    | short q c => cases hnode
    | full ts => cases hnode

theorem Stops.short {q k : Path} {c : TrieTree} (hq : q ≠ []) {out : Option (Path × Node)}
    (h : Stops keccak c k out) : Stops keccak (.short q c) (q ++ k) out := by
  cases h with
  | absent h => exact .absent (by rw [lookup_short_append, h])
  | found h => exact .found (by rw [lookup_short_append, h])
  | @hash r rest w hk hw hlen heq =>
    subst hk
    refine .hash (append_assoc q r rest).symm ?_ hlen ?_
    · rw [nodeAt_short_append hq, hw]
    · rw [lookup_short_append, heq]

theorem Stops.full {a : Nibble} {k : Path} {ts : Nibble → TrieTree}
    {out : Option (Path × Node)} (h : Stops keccak (ts a) k out) :
    Stops keccak (.full ts) (a :: k) out := by
  cases h with
  | absent h => exact .absent h
  | found h => exact .found h
  | @hash r rest w hk hw hlen heq =>
    subst hk
    exact .hash (r := a :: r) rfl hw hlen heq

theorem get_firstNode {N : Nat} {u : TrieTree} (hu : TrieShape N u) {k : Path}
    (hk : Terminated term k) (hash : Option Hash) :
    Stops keccak u k (Proof.get (firstNode keccak hash u) k true) := by
  induction hu generalizing k hash with
  | @leaf N q v hq hlen hv =>
    rw [firstNode_short, Proof.get]
    by_cases hpre : q <+: k
    · obtain ⟨k', rfl⟩ := hpre
      rw [if_pos (prefix_append q k'), if_pos rfl, drop_left]
      refine Stops.short hq.ne_nil (stops_refNode (N := N) (slot_short ?_ hk) fun h => ?_)
      · exact .leaf hq hlen hv
      · cases h
    · rw [if_neg hpre]
      exact .absent (lookup_short_eq_none _ hpre)
  | @ext N M q ts hne hq hlen hts ih =>
    rw [firstNode_short, Proof.get]
    by_cases hpre : q <+: k
    · obtain ⟨k', rfl⟩ := hpre
      rw [if_pos (prefix_append q k'), if_pos rfl, drop_left]
      have hslot := slot_short (.ext hne hq hlen hts) hk
      refine Stops.short hne (stops_refNode hslot fun h => ?_)
      exact ih (hslot.shape h).1 none
    · rw [if_neg hpre]
      exact .absent (lookup_short_eq_none _ hpre)
  | @full N M ts hlen hts hval ih =>
    rw [firstNode_full]
    cases k with
    | nil => exact absurd rfl hk.ne_nil
    | cons a k =>
      rw [Proof.get, if_pos rfl]
      have hslot := slot_full (.full hlen hts hval) hk
      refine Stops.full (stops_refNode hslot fun h => ?_)
      have ha : a ≠ term := by
        rintro rfl
        rcases hval with hnil | ⟨v, -, hv⟩
        · rw [hnil] at h
          cases h
        · rw [hv] at h
          cases h
      refine ih a ha ?_ (hslot.shape h).1 none
      intro hnil
      rw [hnil] at h
      cases h

theorem length_get_le (h : Proof.get n k true = some (rest, m)) : rest.length ≤ k.length := by
  induction n generalizing k with
  | nil =>
    cases h
    exact le_rfl
  | value v =>
    cases h
    exact Nat.zero_le _
  | hash h' =>
    cases h
    exact le_rfl
  | short q n f ih =>
    rw [Proof.get] at h
    split at h
    · exact (ih h).trans (by rw [length_drop]; omega)
    · cases h
      exact Nat.zero_le _
  | full ns f ih =>
    cases k with
    | nil => cases h
    | cons a k => exact (ih a h).trans (Nat.le_succ _)

/-- A node takes at least one nibble off the key. -/
theorem length_get_lt {N : Nat} (hu : TrieShape N u) {hash : Option Hash} (hk : k ≠ [])
    (h : Proof.get (firstNode keccak hash u) k true = some (rest, m)) : rest.length < k.length := by
  have hpos := length_pos_iff.mpr hk
  cases u with
  | nil => cases hu
  | value v => cases hu
  | short q c =>
    rw [firstNode_short, Proof.get] at h
    split at h
    · have hq := length_pos_iff.mpr hu.word.2
      have := length_get_le h
      rw [length_drop] at this
      omega
    · cases h
      exact hpos
  | full ts =>
    cases k with
    | nil => exact absurd rfl hk
    | cons a k => exact Nat.lt_succ_of_le (length_get_le h)

/-! ## The loop -/

/-- A database in which every value is stored under its hash. -/
def ContentAddressed (keccak : Bytes → Hash) (db : ProofDb) : Prop :=
  ∀ h b, db h = some b → keccak b = h

/-- The blobs of the nodes of a trie that are stored apart. -/
def blobs (keccak : Bytes → Hash) (T : TrieTree) : Set Bytes :=
  { b | ∃ p u, StoreOf keccak T p u ∧ b = enc keccak u }

/-- The values of a database. -/
def valuesOf (db : ProofDb) : Set Bytes := { b | ∃ h, db h = some b }

/-- A database that has nothing else under the hashes of a trie's nodes. -/
def Genuine (keccak : Bytes → Hash) (T : TrieTree) (db : ProofDb) : Prop :=
  ∀ p u b, StoreOf keccak T p u → db (keccak (enc keccak u)) = some b → b = enc keccak u

theorem ContentAddressed.genuine (h : ContentAddressed keccak db)
    (hinj : Set.InjOn keccak (blobs keccak T ∪ valuesOf db)) : Genuine keccak T db := by
  intro p u b hu hb
  exact hinj (.inr ⟨_, hb⟩) (.inl ⟨p, u, hu, rfl⟩) (h _ _ hb)

/-- What the loop returns from a stored node on: the entry, or an error for a node on the
way that the database does not have. -/
theorem verifyLoop_spec (hdb : Genuine keccak T db) {N : Nat} (hN : N ≤ maxKey) :
    ∀ (fuel i : Nat) {p : Path} {u : TrieTree} {k : Path}, StoreOf keccak T p u →
      TrieShape N u → Terminated term k → k.length < fuel →
      verifyLoop db fuel i (keccak (enc keccak u)) k = .ok (u.lookup k) ∨
        ∃ j r w, r <+: k ∧ u.nodeAt r = some w ∧ StoreOf keccak T (p ++ r) w ∧
          db (keccak (enc keccak w)) = none ∧
          verifyLoop db fuel i (keccak (enc keccak u)) k =
            .error (.missingAt j (keccak (enc keccak w)))
  | 0, _, _, _, _, _, _, _, hfuel => absurd hfuel (Nat.not_lt_zero _)
  | fuel + 1, i, p, u, k, hs, hu, hk, hfuel => by
    rw [verifyLoop]
    cases hget : db (keccak (enc keccak u)) with
    | none =>
      refine .inr ⟨i, [], u, nil_prefix, nodeAt_self hu.isNode, ?_, hget, rfl⟩
      rw [append_nil]
      exact hs
    | some buf =>
      rw [hdb p u buf hs hget]
      simp only [decodeNode_enc hN hu]
      have hstop := @get_firstNode keccak N u hu k hk (some (keccak (enc keccak u)))
      generalize hout : Proof.get (firstNode keccak (some (keccak (enc keccak u))) u) k true =
        out at hstop
      cases hstop with
      | absent h => exact .inl (by rw [h])
      | found h => exact .inl (by rw [h])
      | @hash r rest w hk' hw hlen heq =>
        obtain ⟨hshape, hmem⟩ := hu.nodeAt hw
        have hlt := length_get_lt hu hk.ne_nil hout
        subst hk'
        have hrest : rest ≠ [] := by
          rintro rfl
          rw [append_nil] at hk
          exact hmem hk.mem
        have hterm := ((Radix.terminated_append_iff hrest).mp hk).2
        have hs' : StoreOf keccak T (p ++ r) w := by
          refine ⟨?_, .inr hlen⟩
          rw [nodeAt_append hs.1, hw]
        have ih := verifyLoop_spec hdb hN fuel (i + 1) hs' hshape hterm (by omega)
        rw [heq]
        rcases ih with hok | ⟨j, r', w', hpre, hw', hs'', hnone, herr⟩
        · exact .inl hok
        refine .inr ⟨j, r ++ r', w', ?_, ?_, ?_, hnone, herr⟩
        · exact (prefix_append_right_inj r).mpr hpre
        · rw [nodeAt_append hw, hw']
        · rw [← append_assoc]
          exact hs''

/-! ## The nodes `Prove` writes -/

section Path

variable {S : Path → TrieTree → Prop} {N : Nat}

/-- Nodes in memory for the nodes of a tree on the way to a key. -/
structure Along (keccak : Bytes → Hash) (S : Path → TrieTree → Prop) (p : Path) (u : TrieTree)
    (k : Path) (ms : List Node) : Prop where
  sound : ∀ m ∈ ms, ∃ q w, u.nodeAt q = some w ∧ Rep keccak S (p ++ q) m w ∧ Loaded m
  complete : ∀ q w, q <+: k → u.nodeAt q = some w → ∃ m ∈ ms, Rep keccak S (p ++ q) m w ∧ Loaded m
  head : u.isNode = true → ∃ m ms', ms = m :: ms' ∧ Rep keccak S p m u ∧ Loaded m

theorem along_nil (hu : u.isNode = false) : Along keccak S p u k [] where
  sound m hm := absurd hm not_mem_nil
  complete q w _ hw := by
    cases u with
    | nil => cases hw
    | value v => cases hw
    | short q c => cases hu
    | full ts => cases hu
  head h := by
    rw [hu] at h
    cases h

/-- One node more, whose child for the key, if any, has the others. -/
theorem Along.cons {p q k : Path} {u c : TrieTree} {m : Node} {ms : List Node}
    (h : Along keccak S (p ++ q) c k ms) (hrep : Rep keccak S p m u) (hload : Loaded m)
    (hu : u.isNode = true) (hbelow : ∀ r, c.nodeAt r ≠ none → u.nodeAt (q ++ r) = c.nodeAt r)
    (habove : ∀ r w, r ≠ [] → r <+: q ++ k → u.nodeAt r = some w →
      ∃ r', r = q ++ r' ∧ c.nodeAt r' = some w) :
    Along keccak S p u (q ++ k) (m :: ms) where
  sound m' hm' := by
    rcases mem_cons.mp hm' with rfl | hm'
    · refine ⟨[], u, nodeAt_self hu, ?_, hload⟩
      rw [append_nil]
      exact hrep
    obtain ⟨r, w, hw, hrep', hload'⟩ := h.sound m' hm'
    refine ⟨q ++ r, w, ?_, ?_, hload'⟩
    · rw [hbelow r (by rw [hw]; exact Option.some_ne_none w), hw]
    · rw [← append_assoc]
      exact hrep'
  complete r w hr hw := by
    by_cases hnil : r = []
    · subst hnil
      rw [nodeAt_self hu] at hw
      cases hw
      refine ⟨m, mem_cons_self, ?_, hload⟩
      rw [append_nil]
      exact hrep
    · obtain ⟨r', rfl, hw'⟩ := habove r w hnil hr hw
      obtain ⟨m', hm', hrep', hload'⟩ :=
        h.complete r' w ((prefix_append_right_inj q).mp hr) hw'
      refine ⟨m', mem_cons_of_mem m hm', ?_, hload'⟩
      rw [← append_assoc]
      exact hrep'
  head _ := ⟨m, ms, rfl, hrep, hload⟩

theorem pathNodes_spec {r : TrieReader} (hS : StoreOk keccak S) (hr : Serves keccak S r)
    (hN : N ≤ maxKey) (fuel : Nat) {n : Node} {u : TrieTree} {p k : Path}
    (hrep : Rep keccak S p n u) (hslot : Slot N u k) (hfuel : stepsFor n k ≤ fuel) :
    ∃ ms, pathNodes r fuel n p k = .ok ms ∧ Along keccak S p u k ms := by
  refine descend hS (motive := fun fuel p n u k => ∃ ms, pathNodes r fuel n p k = .ok ms ∧
    Along keccak S p u k ms) ?nil ?value ?leave ?short ?full ?hash fuel hrep hslot hfuel
  case nil => exact fun fuel p k => ⟨[], by cases k <;> rw [pathNodes], along_nil rfl⟩
  case value => exact fun fuel p v => ⟨[], by rw [pathNodes], along_nil rfl⟩
  case leave =>
    intro fuel p q x key y k m c f hxy hrep
    have hpre := Radix.not_prefix_of_fork hxy q key k
    refine ⟨[.short (q ++ y :: k) m f], ?_, ?_⟩
    · generalize hkey : q ++ x :: key = key' at hpre ⊢
      obtain ⟨a, k', rfl⟩ := exists_cons_of_ne_nil
        (hkey ▸ append_ne_nil_of_right_ne_nil q (cons_ne_nil x key))
      rw [pathNodes, if_neg hpre]
    · have halong : Along keccak S (p ++ []) (Radix.Tree.nil : TrieTree) (q ++ x :: key) [] :=
        along_nil rfl
      refine halong.cons (q := []) hrep (by rintro _ ⟨⟩) rfl (fun r' h => absurd rfl h) ?_
      intro r' w hr' hpre' hw
      have hnode : HasNode (.short (q ++ y :: k) c) r' := by rw [HasNode, hw]; rfl
      rcases (hasNode_short _ c r').mp hnode with hnil | ⟨r'', rfl, -⟩
      · exact absurd hnil hr'
      · exact absurd ((prefix_append _ r'').trans hpre') hpre
  case short =>
    rintro fuel p q m c f k hrep hshape hk ⟨ms, hms, halong⟩
    have hq := hshape.word.2
    refine ⟨.short q m f :: ms, ?_, ?_⟩
    · obtain ⟨a, k', hkey⟩ := exists_cons_of_ne_nil hk.ne_nil
      rw [hkey, pathNodes, ← hkey, if_pos (prefix_append q k), drop_left, hms]
    · refine halong.cons hrep (by rintro _ ⟨⟩) rfl (fun r' _ => nodeAt_short_append hq c r') ?_
      intro r' w hr' _ hw
      have hnode : HasNode (.short q c) r' := by rw [HasNode, hw]; rfl
      rcases (hasNode_short q c r').mp hnode with hnil | ⟨r'', rfl, -⟩
      · exact absurd hnil hr'
      · rw [nodeAt_short_append hq] at hw
        exact ⟨r'', rfl, hw⟩
  case full =>
    rintro fuel p ns ts f a k hrep _ _ _ ⟨ms, hms, halong⟩
    refine ⟨.full ns f :: ms, by rw [pathNodes, hms], ?_⟩
    refine halong.cons (q := [a]) hrep (by rintro _ ⟨⟩) rfl (fun r' _ => rfl) ?_
    intro r' w hr' hpre hw
    cases r' with
    | nil => exact absurd rfl hr'
    | cons b r' =>
      obtain rfl : b = a := (cons_prefix_cons.mp hpre).1
      exact ⟨r', rfl, hw⟩
  case hash =>
    rintro fuel p u k hnode hs hshape hk ⟨ms, hms, halong⟩
    obtain ⟨a, k, rfl⟩ := exists_cons_of_ne_nil hk.ne_nil
    refine ⟨ms, ?_, halong⟩
    rw [pathNodes, hr p u hs]
    simp only [decodeNode_enc hN hshape]
    exact hms

/-- A child as the hasher collapses it. -/
theorem childSpec_hash (hp : p ≠ []) {t : TrieTree} (h : Rep keccak S p n t) (ht : TrieFits N t) :
    ChildSpec keccak S p n t (hash keccak n false) := by
  rcases ht with rfl | ht
  · rw [h.nil_node]
    exact childSpec_nil p
  · have hspec := hash_spec h ht
    rw [decide_eq_false hp] at hspec
    exact hspec.child hp ht.isNode

/-- A node in memory is written as the tree it stands for. -/
theorem encode_hashChildren (h : Rep keccak S p m w) (hload : Loaded m) (hw : TrieShape N w) :
    (hashChildren keccak m).encode = enc keccak w := by
  cases h with
  | nil => exact absurd rfl hw.ne_nil
  | value _ v => cases hw
  | hash => exact absurd rfl (hload _)
  | @short _ k n t f hn hf hset =>
    have hpk : p ++ k ≠ [] := append_ne_nil_of_right_ne_nil p hw.word.2
    have hchild : (hash keccak n false).1.encode = ref keccak t := by
      cases hw with
      | leaf => rw [hn.value_node]; rfl
      | ext _ _ _ hts => exact (childSpec_hash hpk hn (.inr hts)).encode
    rw [hashChildren, Collapsed.encode, hchild, enc_short]
  | @full _ ns ts f hns hf hset =>
    rw [hashChildren, Collapsed.encode, enc_full]
    congr 2
    funext i
    have hpi : p ++ [i] ≠ [] := concat_ne_nil i p
    by_cases hi : i = term
    · subst hi
      rw [if_pos rfl]
      have hslot := hns term
      rcases hw.valueSlot with hnil | ⟨v, -, hv⟩
      · rw [hnil] at hslot ⊢
        rw [hslot.nil_node]
        rfl
      · rw [hv] at hslot ⊢
        rw [hslot.value_node]
        rfl
    · rw [if_neg hi]
      by_cases hnil : (ns i).isNil = true
      · -- `nilValueNode` is encoded like nothing at all
        rw [if_pos hnil]
        rw [(hns i).isNil, isNil_iff] at hnil
        rw [hnil]
        rfl
      · rw [if_neg hnil]
        exact (childSpec_hash hpi (hns i) (hw.slot hi)).encode

end Path

/-- The entry of a database for a node. -/
def entryOf (keccak : Bytes → Hash) (u : TrieTree) : Hash × Bytes :=
  (keccak (enc keccak u), enc keccak u)

theorem proofEntries_cons {S : Path → TrieTree → Prop} {N : Nat} (h : Rep keccak S p m w)
    (hload : Loaded m) (hw : TrieShape N w) (i : Nat) (ms : List Node) :
    proofEntries keccak i (m :: ms) =
      if 32 ≤ (enc keccak w).length ∨ i = 0 then entryOf keccak w :: proofEntries keccak (i + 1) ms
      else proofEntries keccak (i + 1) ms := by
  have henc := encode_hashChildren h hload hw
  have hproof : ∃ c : Collapsed, (∀ h, c ≠ .hash h) ∧ c.encode = enc keccak w ∧
      proofHash keccak m = (c, nodeToHash keccak c false) := by
    cases m with
    | nil =>
      rw [h.nil_tree] at hw
      cases hw
    | value v =>
      cases h
      cases hw
    | hash h' => exact absurd rfl (hload h')
    | short k n f => exact ⟨_, fun h heq => (by cases heq), henc, rfl⟩
    | full ns f => exact ⟨_, fun h heq => (by cases heq), henc, rfl⟩
  obtain ⟨c, hc, hce, hproof⟩ := hproof
  rw [proofEntries, hproof, nodeToHash]
  by_cases hlen : 32 ≤ (enc keccak w).length
  · rw [if_neg (by rw [hce]; omega), if_pos (.inl hlen)]
    simp only [hce, entryOf]
  rw [if_pos ⟨by rw [hce]; omega, rfl⟩]
  by_cases hi : i = 0
  · rw [if_pos (.inr hi)]
    cases c with
    | hash h => exact absurd rfl (hc h)
    | nil => simp only [if_pos hi, hce, entryOf]
    | value v => simp only [if_pos hi, hce, entryOf]
    | short k c => simp only [if_pos hi, hce, entryOf]
    | full cs => simp only [if_pos hi, hce, entryOf]
  · rw [if_neg (not_or.mpr ⟨hlen, hi⟩)]
    cases c with
    | hash h => exact absurd rfl (hc h)
    | nil => simp only [if_neg hi]
    | value v => simp only [if_neg hi]
    | short k c => simp only [if_neg hi]
    | full cs => simp only [if_neg hi]

/-- After the root only nodes of 32 bytes are written. -/
theorem of_mem_proofEntries {S : Path → TrieTree → Prop} {N : Nat} {P : TrieTree → Prop}
    (h : ∀ m ∈ ms, ∃ q w, Rep keccak S q m w ∧ Loaded m ∧ TrieShape N w ∧ P w) {i : Nat}
    {e : Hash × Bytes} (he : e ∈ proofEntries keccak (i + 1) ms) :
    ∃ w, P w ∧ 32 ≤ (enc keccak w).length ∧ e = entryOf keccak w := by
  induction ms generalizing i with
  | nil => exact absurd he not_mem_nil
  | cons m ms ih =>
    have htail := fun m' hm' => h m' (mem_cons_of_mem m hm')
    obtain ⟨q, w, hrep, hload, hw, hP⟩ := h m mem_cons_self
    rw [proofEntries_cons hrep hload hw] at he
    split at he
    · rename_i hlen
      rcases mem_cons.mp he with rfl | he
      · exact ⟨w, hP, hlen.resolve_right (Nat.succ_ne_zero i), rfl⟩
      · exact ih htail he
    · exact ih htail he

/-- And all of them are. -/
theorem entryOf_mem_proofEntries {S : Path → TrieTree → Prop} {N : Nat}
    (h : ∀ m ∈ ms, ∃ q w, Rep keccak S q m w ∧ Loaded m ∧ TrieShape N w) (hm : m ∈ ms) {q : Path}
    (hrep : Rep keccak S q m w) (hload : Loaded m) (hw : TrieShape N w)
    (hlen : 32 ≤ (enc keccak w).length) (i : Nat) :
    entryOf keccak w ∈ proofEntries keccak i ms := by
  induction ms generalizing i with
  | nil => exact absurd hm not_mem_nil
  | cons m' ms ih =>
    rcases mem_cons.mp hm with rfl | hm
    · rw [proofEntries_cons hrep hload hw, if_pos (.inl hlen)]
      exact mem_cons_self
    have htail := ih (fun m'' hm'' => h m'' (mem_cons_of_mem m' hm'')) hm (i + 1)
    obtain ⟨q', w', hrep', hload', hw'⟩ := h m' mem_cons_self
    rw [proofEntries_cons hrep' hload' hw']
    split
    · exact mem_cons_of_mem _ htail
    · exact htail

/-- The entries for a key: nodes of the trie only, and all of them that are on the way. -/
structure Proves (keccak : Bytes → Hash) (T : TrieTree) (key : Bytes)
    (entries : List (Hash × Bytes)) : Prop where
  sound : ∀ e ∈ entries, ∃ p u, StoreOf keccak T p u ∧ e = entryOf keccak u
  complete : ∀ p u, StoreOf keccak T p u → p <+: keybytesToHex key → entryOf keccak u ∈ entries

theorem Opened.prove {T₀ : TrieTree} {t : Trie} (h : Opened keccak T₀ t T) (hne : T ≠ .nil)
    (key : Bytes) : ∃ entries, Prove keccak t key = .ok entries ∧ Proves keccak T key entries := by
  have hshape : TrieShape maxKey T := h.ok.fits.resolve_left hne
  obtain ⟨ms, hms, halong⟩ := pathNodes_spec (storeOk_storeOf T₀) h.serves le_rfl
    (fuelFor (keybytesToHex key)) h.rep (h.slot key) (stepsFor_le _ _)
  refine ⟨proofEntries keccak 0 ms, ?_, ?_⟩
  · rw [Prove, if_neg (by rw [h.usable]; exact Bool.false_ne_true)]
    simp only [hms]
  have hall : ∀ m ∈ ms, ∃ q w, Rep keccak (StoreOf keccak T₀) q m w ∧ Loaded m ∧
      TrieShape maxKey w ∧ ∃ p, T.nodeAt p = some w := by
    intro m hm
    obtain ⟨q, w, hw, hrep, hload⟩ := halong.sound m hm
    exact ⟨_, w, hrep, hload, (hshape.nodeAt hw).1, q, hw⟩
  obtain ⟨m, ms', rfl, hrep, hload⟩ := halong.head hshape.isNode
  have hcons := proofEntries_cons hrep hload hshape 0 ms'
  rw [if_pos (.inr rfl)] at hcons
  constructor
  · intro e he
    rw [hcons] at he
    rcases mem_cons.mp he with rfl | he
    · exact ⟨[], T, storeOf_root keccak hshape, rfl⟩
    · obtain ⟨w, ⟨p, hp⟩, hlen, rfl⟩ :=
        of_mem_proofEntries (fun m' hm' => hall m' (mem_cons_of_mem m hm')) he
      exact ⟨p, w, ⟨hp, .inr hlen⟩, rfl⟩
  · rintro p u ⟨hu, hstand⟩ hpre
    by_cases hnil : p = []
    · subst hnil
      rw [nodeAt_self hshape.isNode] at hu
      cases hu
      rw [hcons]
      exact mem_cons_self
    · obtain ⟨m', hm', hrep', hload'⟩ := halong.complete p u hpre hu
      refine entryOf_mem_proofEntries (fun m'' hm'' => ?_) hm' hrep' hload'
        (hshape.nodeAt hu).1 (hstand.resolve_left hnil) 0
      obtain ⟨q, w, hrep'', hload'', hw, -⟩ := hall m'' hm''
      exact ⟨q, w, hrep'', hload'', hw⟩

/-! ## The database `Prove` fills -/

theorem putAll_cons (db : ProofDb) (e : Hash × Bytes) (es : List (Hash × Bytes)) :
    putAll db (e :: es) = putAll (Function.update db e.1 (some e.2)) es := rfl

theorem of_putAll_eq_some {b : Bytes} (heq : putAll db es h = some b) :
    (h, b) ∈ es ∨ db h = some b := by
  induction es generalizing db with
  | nil => exact .inr heq
  | cons e es ih =>
    rw [putAll_cons] at heq
    rcases ih heq with hmem | hdb
    · exact .inl (mem_cons_of_mem e hmem)
    by_cases hh : h = e.1
    · subst hh
      rw [Function.update_self, Option.some.injEq] at hdb
      rw [← hdb]
      exact .inl mem_cons_self
    · rw [Function.update_of_ne hh] at hdb
      exact .inr hdb

theorem putAll_ne_none (hmem : db h ≠ none ∨ ∃ b, (h, b) ∈ es) : putAll db es h ≠ none := by
  induction es generalizing db with
  | nil =>
    rcases hmem with hdb | ⟨b, hb⟩
    · exact hdb
    · exact absurd hb not_mem_nil
  | cons e es ih =>
    rw [putAll_cons]
    refine ih ?_
    by_cases hh : h = e.1
    · left
      subst hh
      rw [Function.update_self]
      exact Option.some_ne_none _
    rw [Function.update_of_ne hh]
    refine hmem.imp id ?_
    rintro ⟨b, hb⟩
    rcases mem_cons.mp hb with rfl | hb
    · exact absurd rfl hh
    · exact ⟨b, hb⟩

/-- The database of a proof has the nodes on the way to the key, and nothing wrong. -/
theorem Proves.genuine {key : Bytes} {entries : List (Hash × Bytes)}
    (h : Proves keccak T key entries) (hinj : Set.InjOn keccak (blobs keccak T)) :
    Genuine keccak T (putAll emptyDb entries) := by
  intro p u b hu hb
  rcases of_putAll_eq_some hb with hmem | hnone
  · obtain ⟨q, w, hw, heq⟩ := h.sound _ hmem
    rw [entryOf, Prod.mk.injEq] at heq
    rw [heq.2]
    exact hinj ⟨q, w, hw, rfl⟩ ⟨p, u, hu, rfl⟩ heq.1.symm
  · cases hnone

/-- Merkle proofs are complete and sound, and verifying one takes no more rounds than the
hex key has nibbles. -/
theorem verifyProof_iff_get {T₀ T : TrieTree} {t : Trie} (h : Opened keccak T₀ t T)
    (hne : T ≠ .nil) (key : Bytes) :
    (Set.InjOn keccak (blobs keccak T) → ∃ entries, Prove keccak t key = .ok entries ∧
        ∀ fuel > (keybytesToHex key).length, ∃ v,
          VerifyProof fuel (rootHash keccak t).2 key (putAll emptyDb entries) = .ok v ∧
          (t.Get key).2 = .ok v) ∧
    (∀ db, ContentAddressed keccak db → Set.InjOn keccak (blobs keccak T ∪ valuesOf db) →
      ∀ fuel > (keybytesToHex key).length,
        VerifyProof fuel (rootHash keccak t).2 key db ≠ .error .fuel ∧
        ∀ v, VerifyProof fuel (rootHash keccak t).2 key db = .ok v → (t.Get key).2 = .ok v) := by
  have hshape : TrieShape maxKey T := h.ok.fits.resolve_left hne
  obtain ⟨t₁, hget, -⟩ := h.get key
  obtain ⟨t₂, hroot, -⟩ := h.rootHash
  have hkey := terminated_keybytesToHex key
  rw [hroot, hget, treeHash_of_shape hshape]
  constructor
  · intro hinj
    obtain ⟨entries, hprove, hproves⟩ := h.prove hne key
    refine ⟨entries, hprove, fun fuel hfuel => ⟨_, ?_, rfl⟩⟩
    rcases verifyLoop_spec (hproves.genuine hinj) le_rfl fuel 0 (storeOf_root keccak hshape)
      hshape hkey hfuel with hok | ⟨j, r, w, hpre, -, hs, hnone, -⟩
    · exact hok
    · rw [nil_append] at hs
      refine absurd hnone (putAll_ne_none (.inr ⟨enc keccak w, ?_⟩))
      exact hproves.complete r w hs hpre
  · intro db hdb hinj fuel hfuel
    have hspec := verifyLoop_spec (hdb.genuine hinj) le_rfl fuel 0 (storeOf_root keccak hshape)
      hshape hkey hfuel
    rcases hspec with hok | ⟨j, r, w, -, -, -, -, herr⟩
    · rw [VerifyProof, hok]
      refine ⟨fun heq => (by cases heq), fun v hv => ?_⟩
      cases hv
      rfl
    · rw [VerifyProof, herr]
      exact ⟨fun heq => (by cases heq), fun v hv => (by cases hv)⟩

end Verify

theorem opened_leafTrie : ∃ t, Opened keccak256 .nil t leafTrie := by
  obtain ⟨t, -, hopen⟩ := (@sessionOk_new keccak256).opened.update
    (by decide : KeyOk [0x12]) (by decide : [(0x01 : UInt8)].length < 2 ^ 63)
  exact ⟨t, hopen⟩

theorem injOn_leafTrie : Set.InjOn keccak256 (blobs keccak256 leafTrie) := by
  rintro _ ⟨p, u, hu, rfl⟩ _ ⟨q, w, hw, rfl⟩ -
  rw [(storeOf_leafTrie.mp hu).2, (storeOf_leafTrie.mp hw).2]

/-- The trie with one leaf proves its entry. -/
theorem verifyProof_iff_get_leafTrie : ∃ t entries, Opened keccak256 .nil t leafTrie ∧
      Prove keccak256 t [0x12] = .ok entries ∧
      VerifyProof 6 (rootHash keccak256 t).2 [0x12] (putAll emptyDb entries) =
        .ok (some [0x01]) := by
  obtain ⟨t, hleaf⟩ := opened_leafTrie
  obtain ⟨entries, hprove, hverify⟩ :=
    (verifyProof_iff_get hleaf (by rintro ⟨⟩) [0x12]).1 injOn_leafTrie
  obtain ⟨v, hv, hget⟩ := hverify 6 (by decide)
  obtain ⟨t', hget', -⟩ := hleaf.get [0x12]
  rw [hget'] at hget
  cases hget
  exact ⟨t, entries, hleaf, hprove, hv⟩

end GoEthereum.Trie

import GoEthereum.Lib.Keccak
import GoEthereum.Trie.Opened

/-!
# Writes that fail

What `Update` and `Delete` leave behind when the reader does not have a node they
need. `insert` changes nothing before it has everything, and so does `delete` on the
way down. But `delete` empties the slot of a branch before it resolves the one child
that is left in it; when that fails the branch stays in memory without the entry.
`Strands` describes exactly this.
-/

namespace GoEthereum.Trie

open Keccak (keccak256)
open Radix (Tree Terminated)
open Radix.Tree List Function

variable {key : Bytes} {fuel : Nat} {a : Option Bytes} {k p : Path} {t t' : Trie} {T T₀ : TrieTree}

variable {v : Bytes} {e : Err} {ns : Nibble → Node} {m : Node} {f : NodeFlag}

/-- What `delete` takes away as a whole: a value, or the leaf that spells the rest of the
key, which may have to be read first. -/
inductive Removed (r : TrieReader) : Path → Node → Path → Prop where
  | value (p : Path) (v : Bytes) : Removed r p (.value v) []
  | leaf (p k : Path) (m : Node) (f : NodeFlag) : Removed r p (.short k m f) k
  | stored {p k : Path} {h : Hash} {blob : Bytes} {m : Node} {f : NodeFlag} :
      r.node p h = .ok blob → decodeNode (some h) blob = .ok (.short k m f) →
      Removed r p (.hash h) k

/-- On the way to the key, in memory, there is a branch that loses the key's child and
keeps one other child, which the reader does not have. -/
inductive Strands (r : TrieReader) : Path → Node → Path → Prop where
  | short {p q k : Path} {m : Node} {f : NodeFlag} :
      Strands r (p ++ q) m k → Strands r p (.short q m f) (q ++ k)
  | full {p k : Path} {a : Nibble} {ns : Nibble → Node} {f : NodeFlag} :
      Strands r (p ++ [a]) (ns a) k → Strands r p (.full ns f) (a :: k)
  | here {p k : Path} {a j : Nibble} {ns : Nibble → Node} {f : NodeFlag} {h : Hash} {e : Err} :
      Removed r (p ++ [a]) (ns a) k → occupied (Function.update ns a .nil) = [j] →
      j ≠ term → Function.update ns a .nil j = .hash h → r.node (p ++ [j]) h = .error e →
      Strands r p (.full ns f) (a :: k)

/-- `get` answers, whatever was traced before. -/
def Returns (r : TrieReader) (fuel : Nat) (p : Path) (n : Node) (k : Path)
    (a : Option Bytes) : Prop :=
  ∀ tr, ∃ tr' n' b, get r fuel tr n p k = (tr', .ok (a, n', b))

section Failure

variable {keccak : Bytes → Hash} {S : Path → TrieTree → Prop} {r : TrieReader} {N : Nat}

theorem returns_short {q : Path} (h : Returns r fuel (p ++ q) m k a) (f : NodeFlag) :
    Returns r (fuel + 1) p (.short q m f) (q ++ k) a := by
  intro tr
  obtain ⟨tr', n', b, heq⟩ := h tr
  rw [get, if_pos (prefix_append q k), drop_left, heq]
  exact ⟨_, _, _, rfl⟩

theorem returns_full {x : Nibble} (h : Returns r fuel (p ++ [x]) (ns x) k a) (f : NodeFlag) :
    Returns r (fuel + 1) p (.full ns f) (x :: k) a := by
  intro tr
  obtain ⟨tr', n', b, heq⟩ := h tr
  rw [get, heq]
  exact ⟨_, _, _, rfl⟩

theorem returns_nil (fuel : Nat) (p k : Path) : Returns r (fuel + 1) p .nil k none :=
  fun tr => ⟨tr, .nil, false, rfl⟩

/-- A leaf for a key has a value. -/
theorem returns_leaf {t : TrieTree} (hrep : Rep keccak S p (.short k m f) t) (hslot : Slot N t k)
    (fuel : Nat) : ∃ v, Returns r (fuel + 2) p (.short k m f) k (some v) := by
  cases hrep with
  | short hc hf hset =>
    obtain ⟨hk, hshape⟩ := hslot.shape rfl
    cases hshape with
    | ext _ hp _ _ => exact absurd hk.mem hp
    | @leaf _ _ v _ _ _ =>
      refine ⟨v, ?_⟩
      have hval : Returns r (fuel + 1) (p ++ k) m [] (some v) := by
        rw [hc.value_node]
        exact fun tr => ⟨tr, .value v, false, rfl⟩
      have h := returns_short hval f
      rwa [append_nil] at h

/-- Before the call the key was there. -/
theorem Removed.returns (hS : StoreOk keccak S) (hr : Honest keccak S r) (hN : N ≤ maxKey)
    {n : Node} (h : Removed r p n k) {t : TrieTree} (hrep : Rep keccak S p n t) (hslot : Slot N t k)
    (hfuel : stepsFor n k ≤ fuel) : ∃ v, Returns r fuel p n k (some v) := by
  cases h with
  | value v =>
    obtain ⟨fuel, rfl⟩ := Nat.exists_eq_add_one.mpr (Nat.lt_of_lt_of_le Nat.zero_lt_one hfuel)
    exact ⟨v, fun tr => ⟨tr, .value v, false, rfl⟩⟩
  | leaf m f =>
    have hk : Terminated term k := by
      cases hrep with
      | short => exact (hslot.shape rfl).1
    have hlen := length_pos_iff.mpr hk.ne_nil
    obtain ⟨fuel, rfl⟩ : ∃ m, fuel = m + 2 := by
      refine ⟨fuel - 2, ?_⟩
      simp only [stepsFor] at hfuel
      omega
    exact returns_leaf hrep hslot fuel
  | @stored _ h blob m f hblob hdec =>
    cases hrep with
    | hash hnode hlen hs =>
      obtain ⟨hk, hshape⟩ := hslot.shape hnode
      have hpos := length_pos_iff.mpr hk.ne_nil
      obtain ⟨fuel, rfl⟩ : ∃ m, fuel = m + 3 := by
        refine ⟨fuel - 3, ?_⟩
        simp only [stepsFor] at hfuel
        omega
      rcases resolveAndTrack_cases hr hN hshape hs newTracer with ⟨hok, -⟩ | ⟨e, -, herr⟩
      · rw [hok] at hblob
        cases hblob
        rw [decodeNode_enc hN hshape, Except.ok.injEq] at hdec
        have hrep' := (sim_resolve hS hshape hs newTracer).rep
        rw [hdec] at hrep'
        obtain ⟨v, hv⟩ := returns_leaf (r := r) hrep' hslot fuel
        refine ⟨v, fun tr => ?_⟩
        obtain ⟨tr', n', b, heq⟩ := hv (tr.onRead p (enc keccak t))
        refine ⟨tr', n', true, ?_⟩
        rw [get, resolveAndTrack, hok]
        simp only [decodeNode_enc hN hshape, hdec, heq]
      · simp [resolveAndTrack, hblob, hdec] at herr

/-! ## What `delete` leaves behind -/

/-- The outcome of `delete`: what it left in the place of `n` when it failed. -/
inductive Outcome (r : TrieReader) (fuel : Nat) (p : Path) (n : Node) (k : Path) :
    Tracer × Except (Err × Node) (Bool × Node) → Prop where
  | done {tr : Tracer} {b : Bool} {n' : Node} : (b = true → n'.isNil = true → Removed r p n k) →
      Outcome r fuel p n k (tr, .ok (b, n'))
  | kept {tr : Tracer} {e : Err} : ¬ Removed r p n k → ¬ Strands r p n k →
      Outcome r fuel p n k (tr, .error (e, n))
  | lost {tr : Tracer} {e : Err} {left : Node} {v : Bytes} : ¬ Removed r p n k →
      Strands r p n k → Returns r fuel p n k (some v) → Returns r fuel p left k none →
      Outcome r fuel p n k (tr, .error (e, left))

/-- The end of `delete` at a branch whose child for the key is gone. -/
theorem outcome_reduce (hS : StoreOk keccak S) (hr : Honest keccak S r) (hN : N ≤ maxKey)
    {a : Nibble} {ts : Nibble → TrieTree} (hns : ∀ i, Rep keccak S (p ++ [i]) (ns i) (ts i))
    (hshape : TrieShape N (.full ts)) (hk : Terminated term (a :: k))
    (hrem : Removed r (p ++ [a]) (ns a) k) (hfuel : stepsFor (ns a) k ≤ fuel) (tr : Tracer) :
    Outcome r (fuel + 1) p (.full ns f) (a :: k) (reduce r tr (Function.update ns a .nil) p) := by
  have hns' : ∀ i, Rep keccak S (p ++ [i]) (Function.update ns a .nil i)
      (Function.update ts a .nil i) := rep_update hns (.nil _)
  rw [reduce]
  split
  swap
  · exact .done fun _ h => absurd h Bool.false_ne_true
  rename_i j hocc
  by_cases hj : j = term
  · rw [if_pos hj]
    exact .done fun _ h => absurd h Bool.false_ne_true
  rw [if_neg hj]
  have hsole := (occupied_eq_singleton hns' j).mp hocc
  have hchild : TrieShape N (Function.update ts a .nil j) :=
    (fits_update_nil hshape hj).resolve_left hsole.1
  rcases hm : resolve r tr (Function.update ns a .nil j) (p ++ [j]) with ⟨tr', res⟩
  cases res with
  | ok cnode =>
    cases cnode <;> exact .done fun _ h => absurd h Bool.false_ne_true
  | error e =>
    -- only a hash node can fail
    have hrep := hns' j
    generalize hm' : Function.update ns a .nil j = m at hm hrep
    generalize Function.update ts a .nil j = u at hrep hchild
    cases hrep with
    | nil => cases hm
    | value => cases hm
    | short => cases hm
    | full => cases hm
    | hash hnode hlen hs =>
      have herr : ∃ e, r.node (p ++ [j]) (keccak (enc keccak u)) = .error e := by
        rcases hr _ _ hs with hok | herr
        · rw [resolve, resolveAndTrack, hok] at hm
          simp only [decodeNode_enc hN hchild] at hm
          cases hm
        · exact ⟨_, herr⟩
      obtain ⟨e', herr⟩ := herr
      obtain ⟨v, hv⟩ := hrem.returns hS hr hN (hns a) (slot_full hshape hk) hfuel
      have hpos : 0 < fuel := by
        refine Nat.lt_of_lt_of_le ?_ hfuel
        cases ns a <;> exact Nat.succ_pos _
      obtain ⟨fuel, rfl⟩ := Nat.exists_eq_add_one.mpr hpos
      refine .lost (by rintro ⟨⟩) (.here hrem hocc hj hm' herr)
        (returns_full hv f) (returns_full ?_ newFlag)
      rw [update_self]
      exact returns_nil fuel _ k

/-- The leaf that is behind a hash node. -/
theorem removed_hash {t : TrieTree} {hash : Option Hash} (hnode : t.isNode = true)
    (h : Removed r p (firstNode keccak hash t) k) :
    ∃ m f, firstNode keccak hash t = .short k m f := by
  cases t with
  | nil => cases hnode
  | value v => cases hnode
  | full ts => cases h
  | short q c =>
    rw [firstNode_short] at h ⊢
    cases h with
    | leaf => exact ⟨_, _, rfl⟩

theorem delete_outcome (hS : StoreOk keccak S) (hr : Honest keccak S r) (hN : N ≤ maxKey)
    (fuel : Nat) {n : Node} {t : TrieTree} {p k : Path} (tr : Tracer) (hrep : Rep keccak S p n t)
    (hslot : Slot N t k) (hfuel : stepsFor n k ≤ fuel) :
    Outcome r fuel p n k (delete r fuel tr n p k) := by
  refine descend hS (motive := fun fuel p n t k => ∀ tr, Outcome r fuel p n k
    (delete r fuel tr n p k)) ?nil ?value ?leave ?short ?full ?hash fuel hrep hslot hfuel tr
  case nil => exact fun fuel p k tr => .done (by rintro ⟨⟩)
  case value => exact fun fuel p v tr => .done fun _ _ => .value p v
  case leave =>
    intro fuel p q x key y k m c f hxy _ tr
    rw [delete_short_parts (fuel + 1) tr hxy]
    exact .done (by rintro ⟨⟩)
  case short =>
    intro fuel p q m c f k hrep hshape hk ih tr
    by_cases hk' : k = []
    · subst hk'
      rw [append_nil, delete_short_whole]
      exact .done fun _ _ => .leaf p q m f
    have hrem : ¬ Removed r p (.short q m f) (q ++ k) := by
      generalize hkey : q ++ k = key
      rintro ⟨⟩
      exact hk' (append_right_eq_self.mp hkey)
    specialize ih tr
    rw [delete_short_below fuel tr p q hk']
    generalize delete r _ _ _ _ _ = out at ih ⊢
    cases ih with
    | @done _ b n' hb =>
      cases b with
      | false => exact .done (by rintro ⟨⟩)
      | true => cases n' <;> exact .done fun _ h => absurd h Bool.false_ne_true
    | kept _ hstr =>
      refine .kept hrem ?_
      generalize hkey : q ++ k = key
      rintro (⟨h⟩ | _ | _)
      rw [append_cancel_left hkey] at hstr
      exact hstr h
    | lost _ hstr hv hnone =>
      exact .lost hrem (.short hstr) (returns_short hv f) (returns_short hnone f)
  case full =>
    intro fuel p ns ts f a k hrep hshape hk hsteps ih tr
    have hrem : ¬ Removed r p (.full ns f) (a :: k) := by rintro ⟨⟩
    specialize ih tr
    rw [delete]
    generalize delete r _ _ _ _ _ = out at ih ⊢
    cases ih with
    | @done tr' b n' hb =>
      cases b with
      | false => exact .done (by rintro ⟨⟩)
      | true =>
        cases n' with
        | nil =>
          cases hrep with
          | full hns => exact outcome_reduce hS hr hN hns hshape hk (hb rfl rfl) hsteps tr'
        | _ => exact .done fun _ h => absurd h Bool.false_ne_true
    | kept hnrem hstr =>
      simp only [update_eq_self]
      refine .kept hrem ?_
      rintro (_ | h | h)
      · exact hstr h
      · exact hnrem h
    | lost _ hstr hv hnone =>
      refine .lost hrem (.full hstr) (returns_full hv f) (returns_full ?_ f)
      rw [update_self]
      exact hnone
  case hash =>
    intro fuel p t k hnode hs hshape _ ih tr
    have hstr : ¬ Strands r p (.hash (keccak (enc keccak t))) k := by rintro ⟨⟩
    rw [delete]
    rcases resolveAndTrack_cases hr hN hshape hs tr with ⟨hread, hok⟩ | ⟨e, he, herr⟩
    · have hdec : decodeNode (some (keccak (enc keccak t))) (enc keccak t) =
          .ok (firstNode keccak (some (keccak (enc keccak t))) t) :=
        decodeNode_enc hN hshape _
      have hrem : ¬ Removed r p (firstNode keccak (some (keccak (enc keccak t))) t) k →
          ¬ Removed r p (.hash (keccak (enc keccak t))) k := by
        rintro hn ⟨⟩
        rename_i blob m f hblob hdec'
        rw [hread] at hblob
        cases hblob
        rw [hdec, Except.ok.injEq] at hdec'
        rw [hdec'] at hn
        exact hn (.leaf p k m f)
      specialize ih (tr.onRead p (enc keccak t))
      simp only [hok]
      generalize delete r _ _ _ _ _ = out at ih ⊢
      cases ih with
      | @done _ b n' hb =>
        cases b with
        | false => exact .done (by rintro ⟨⟩)
        | true =>
          refine .done fun _ hnil => ?_
          obtain ⟨m, f, hfirst⟩ := removed_hash hnode (hb rfl hnil)
          rw [hfirst] at hdec
          exact .stored hread hdec
      | kept hnrem _ => exact .kept (hrem hnrem) hstr
      | lost hnrem _ _ _ => exact .kept (hrem hnrem) hstr
    · simp only [herr]
      refine .kept ?_ hstr
      rintro ⟨⟩
      rename_i blob m f hblob hdec
      simp [resolveAndTrack, hblob, hdec] at herr

/-- What `get` returns does not depend on the tracer. -/
theorem get_snd (fuel : Nat) (tr tr' : Tracer) (n : Node) (p k : Path) :
    (get r fuel tr n p k).2 = (get r fuel tr' n p k).2 := by
  induction fuel generalizing tr tr' n p k with
  | zero => rfl
  | succ fuel ih =>
    cases n with
    | nil => rfl
    | value v => rfl
    | short q m f =>
      rw [get, get]
      by_cases hq : q <+: k
      · rw [if_pos hq, if_pos hq]
        have h := ih tr tr' m (p ++ q) (k.drop q.length)
        generalize get r fuel tr m (p ++ q) (k.drop q.length) = x at h ⊢
        generalize get r fuel tr' m (p ++ q) (k.drop q.length) = y at h ⊢
        obtain ⟨tr₁, x⟩ := x
        obtain ⟨tr₂, y⟩ := y
        obtain rfl : x = y := h
        cases x <;> rfl
      · rw [if_neg hq, if_neg hq]
    | full ns f =>
      cases k with
      | nil => rfl
      | cons a k =>
        rw [get, get]
        have h := ih tr tr' (ns a) (p ++ [a]) k
        generalize get r fuel tr (ns a) (p ++ [a]) k = x at h ⊢
        generalize get r fuel tr' (ns a) (p ++ [a]) k = y at h ⊢
        obtain ⟨tr₁, x⟩ := x
        obtain ⟨tr₂, y⟩ := y
        obtain rfl : x = y := h
        cases x <;> rfl
    | hash h =>
      rw [get, get, resolveAndTrack, resolveAndTrack]
      rcases r.node p h with e | blob
      · rfl
      rcases hd : decodeNode (some h) blob with e | m
      · simp only [hd]
      simp only [hd]
      have h := ih (tr.onRead p blob) (tr'.onRead p blob) m p k
      generalize get r fuel (tr.onRead p blob) m p k = x at h ⊢
      generalize get r fuel (tr'.onRead p blob) m p k = y at h ⊢
      obtain ⟨tr₁, x⟩ := x
      obtain ⟨tr₂, y⟩ := y
      obtain rfl : x = y := h
      cases x <;> rfl

/-! ## Writes on a trie -/

/-- `Update` and `Delete`. -/
inductive Write where
  | update (key v : Bytes)
  | delete (key : Bytes)

def Write.apply (t : Trie) : Write → Trie × Except Err Unit
  | .update key v => t.Update key v
  | .delete key => t.Delete key

/-- The key a write takes away. -/
def Write.removes : Write → Option Bytes
  | .update key v => if v = [] then some key else none
  | .delete key => some key

/-- A write that strands a branch of the trie. -/
def Write.Strands (t : Trie) (w : Write) : Prop :=
  t.committed = false ∧ ∃ key, w.removes = some key ∧
    Trie.Strands t.reader [] t.root (keybytesToHex key)

/-- A trie that stands for `T` on the stored nodes of `T₀`, any of which the reader may not
have. -/
structure Backed (keccak : Bytes → Hash) (T₀ : TrieTree) (t : Trie) (T : TrieTree) : Prop where
  rep : Rep keccak (StoreOf keccak T₀) [] t.root T
  fits : TrieFits maxKey T
  honest : Honest keccak (StoreOf keccak T₀) t.reader

/-- Two tries that answer alike: they hash alike from scratch, and every `Get` returns the
same value or the same error. -/
structure Alike (keccak : Bytes → Hash) (t t' : Trie) : Prop where
  rehash : rehash keccak t' = rehash keccak t
  get : ∀ key, (t'.Get key).2 = (t.Get key).2

/-- A call that leaves the root as it was. -/
theorem Backed.alike (h : Backed keccak T₀ t T) (hroot : t'.root = t.root)
    (hreader : t'.reader = t.reader) (hcommitted : t'.committed = t.committed) :
    Alike keccak t t' where
  rehash := by
    have hrep := h.rep
    rw [← hroot] at hrep
    rw [rehash_eq hrep h.fits, rehash_eq h.rep h.fits]
  get key := by
    rw [Get, Get, hcommitted]
    split
    · rfl
    have h := get_snd (r := t.reader) (fuelFor (keybytesToHex key)) t.tracer t'.tracer t.root []
      (keybytesToHex key)
    simp only [hroot, hreader]
    generalize Trie.get t.reader (fuelFor (keybytesToHex key)) t.tracer t.root []
      (keybytesToHex key) = x at h ⊢
    generalize Trie.get t.reader (fuelFor (keybytesToHex key)) t'.tracer t.root []
      (keybytesToHex key) = y at h ⊢
    obtain ⟨tr₁, x⟩ := x
    obtain ⟨tr₂, y⟩ := y
    obtain rfl : x = y := h
    cases x <;> rfl

theorem get_of_returns (h : t.committed = false)
    (ha : Returns t.reader (fuelFor (keybytesToHex key)) [] t.root (keybytesToHex key) a) :
    (t.Get key).2 = .ok a := by
  obtain ⟨tr', n', b, heq⟩ := ha t.tracer
  rw [Get, h, if_neg Bool.false_ne_true]
  simp only [heq]

theorem Write.strands_iff (h : t.committed = false) {w : Write} (key : Bytes)
    (hkey : w.removes = some key) :
    w.Strands t ↔ Trie.Strands t.reader [] t.root (keybytesToHex key) := by
  constructor
  · rintro ⟨-, key', hkey', hstr⟩
    rw [hkey] at hkey'
    cases hkey'
    exact hstr
  · intro hstr
    exact ⟨h, key, hkey, hstr⟩

/-- A failed deletion from the root; the counters have been raised by then. -/
theorem deleteRoot_error (h : Backed keccak T₀ t T) (husable : t.committed = false) {m n : Nat}
    (herr : ({ t with unhashed := m, uncommitted := n } : Trie).deleteRoot (keybytesToHex key) = (t', .error e)) :
    Alike keccak t t' ↔ ¬ Trie.Strands t.reader [] t.root (keybytesToHex key) := by
  have hout := delete_outcome (storeOk_storeOf T₀) h.honest le_rfl
    (fuelFor (keybytesToHex key)) t.tracer h.rep
    (.inl ⟨terminated_keybytesToHex key, h.fits⟩) (stepsFor_le _ _)
  rw [deleteRoot] at herr
  rcases hres : Trie.delete t.reader (fuelFor (keybytesToHex key)) t.tracer t.root []
    (keybytesToHex key) with ⟨tracer, res⟩
  simp only [hres] at hout herr
  cases hout with
  | done => cases herr
  | kept _ hstr =>
    cases herr
    exact iff_of_true (h.alike rfl rfl rfl) hstr
  | lost _ hstr hv hnone =>
    cases herr
    refine iff_of_false (fun halike => ?_) (not_not.mpr hstr)
    have hbefore := get_of_returns husable hv
    have hafter := halike.get key
    rw [hbefore, get_of_returns (by exact husable) hnone] at hafter
    cases hafter

theorem insertRoot_error (herr : t.insertRoot k v = (t', .error e)) :
    t'.root = t.root ∧ t'.reader = t.reader ∧ t'.committed = t.committed := by
  rw [insertRoot] at herr
  generalize Trie.insert t.reader (fuelFor k) t.tracer t.root [] k (.value v) = out at herr
  obtain ⟨tracer, res⟩ := out
  cases res with
  | error e' =>
    cases herr
    exact ⟨rfl, rfl, rfl⟩
  | ok res => cases herr

/-- A write that fails leaves the trie as it was, unless it strands a branch. -/
theorem failed_write_alike_iff {T₀ T : TrieTree} {t t' : Trie} (h : Backed keccak T₀ t T)
    (w : Write) {e : Err} (hw : w.apply t = (t', .error e)) :
    Alike keccak t t' ↔ ¬ w.Strands t := by
  cases hc : t.committed with
  | true =>
    have hsame : t' = t := by
      cases w with
      | update key v =>
        rw [Write.apply, Update, hc, if_pos rfl] at hw
        exact (congrArg Prod.fst hw).symm
      | delete key =>
        rw [Write.apply, Delete, hc, if_pos rfl] at hw
        exact (congrArg Prod.fst hw).symm
    subst hsame
    refine iff_of_true (h.alike rfl rfl rfl) ?_
    rintro ⟨hfalse, -⟩
    rw [hc] at hfalse
    cases hfalse
  | false =>
    have hopen : ¬ t.committed = true := by
      rw [hc]
      exact Bool.false_ne_true
    cases w with
    | delete key =>
      rw [Write.apply, Delete, if_neg hopen] at hw
      rw [Write.strands_iff hc key rfl]
      exact deleteRoot_error h hc hw
    | update key v =>
      rw [Write.apply, Update, if_neg hopen, Trie.update] at hw
      by_cases hv : v = []
      · subst hv
        rw [if_neg (fun h => h rfl)] at hw
        rw [Write.strands_iff hc key rfl]
        exact deleteRoot_error h hc hw
      rw [if_pos (fun h => hv (length_eq_zero_iff.mp h))] at hw
      obtain ⟨hroot, hreader, hcommitted⟩ := insertRoot_error hw
      refine iff_of_true (h.alike hroot hreader hcommitted) ?_
      rintro ⟨-, key', hkey', -⟩
      rw [Write.removes, if_neg hv] at hkey'
      cases hkey'

/-! ## Runs -/

/-- The tree after a write that may have failed. -/
noncomputable def Write.tree (T : TrieTree) (w : Write) : Except Err Unit → TrieTree
  | .error _ => T
  | .ok _ =>
    match w with
    | .update key v => updated T key v
    | .delete key => without T (keybytesToHex key)

/-- A key and a value that fit into memory. -/
def Write.Ok : Write → Prop
  | .update key v => KeyOk key ∧ v.length < 2 ^ 63
  | .delete _ => True

theorem Write.tree_update_nil (T : TrieTree) (key : Bytes) (res : Except Err Unit) :
    (Write.update key []).tree T res = (Write.delete key).tree T res := by
  cases res with
  | error e => rfl
  | ok u => rw [Write.tree, Write.tree, updated, if_pos rfl]

theorem Backed.deleteRoot (h : Backed keccak T₀ t T)
    (hstr : ¬ Trie.Strands t.reader [] t.root (keybytesToHex key)) :
    Backed keccak T₀ (t.deleteRoot (keybytesToHex key)).1
      ((Write.delete key).tree T (t.deleteRoot (keybytesToHex key)).2) := by
  have hterm := terminated_keybytesToHex key
  have hout := delete_outcome (storeOk_storeOf T₀) h.honest le_rfl
    (fuelFor (keybytesToHex key)) t.tracer h.rep (.inl ⟨hterm, h.fits⟩) (stepsFor_le _ _)
  have hspec := delete_spec (storeOk_storeOf T₀) h.honest le_rfl
    (fuelFor (keybytesToHex key)) t.tracer h.rep (.inl ⟨hterm, h.fits⟩) (stepsFor_le _ _)
  rw [Trie.deleteRoot]
  generalize Trie.delete t.reader (fuelFor (keybytesToHex key)) t.tracer t.root []
    (keybytesToHex key) = out at hout hspec ⊢
  cases hspec with
  | lacks =>
    cases hout with
    | kept => exact ⟨h.rep, h.fits, h.honest⟩
    | lost _ hlost => exact absurd hlost hstr
  | changed hdel hsim =>
    rw [Write.tree, without, hdel]
    exact ⟨hsim.rep, (fits_delete h.fits hterm hdel).1, h.honest⟩
  | same hdel _ hsim =>
    rw [Write.tree, without, hdel]
    exact ⟨hsim.rep, h.fits, h.honest⟩

theorem Backed.insertRoot (h : Backed keccak T₀ t T) (hkey : KeyOk key) (hv : ValueOk v) :
    Backed keccak T₀ (t.insertRoot (keybytesToHex key) v).1
      ((Write.update key v).tree T (t.insertRoot (keybytesToHex key) v).2) := by
  have hterm := terminated_keybytesToHex key
  have hspec := insert_spec (storeOk_storeOf T₀) h.honest le_rfl v
    (fuelFor (keybytesToHex key)) t.tracer h.rep (.inl ⟨hterm, h.fits⟩) (stepsFor_le _ _)
  have hfits := shape_insert h.fits hterm (length_hexKey_le hkey) hv
  rw [Trie.insertRoot]
  generalize Trie.insert t.reader (fuelFor (keybytesToHex key)) t.tracer t.root []
    (keybytesToHex key) (.value v) = out at hspec ⊢
  cases hspec with
  | lacks => exact ⟨h.rep, h.fits, h.honest⟩
  | changed hsim =>
    rw [Write.tree, updated, if_neg hv.1]
    exact ⟨hsim.rep, .inr hfits, h.honest⟩
  | same hsame _ hsim =>
    rw [Write.tree, updated, if_neg hv.1, hsame]
    exact ⟨hsim.rep, h.fits, h.honest⟩

/-- One write. -/
theorem Backed.apply {T₀ T : TrieTree} {t : Trie} (h : Backed keccak T₀ t T) {w : Write}
    (hw : w.Ok) (hstr : ¬ w.Strands t) :
    Backed keccak T₀ (w.apply t).1 (w.tree T (w.apply t).2) := by
  have hcount : ∀ m n, Backed keccak T₀ { t with unhashed := m, uncommitted := n } T :=
    fun m n => ⟨h.rep, h.fits, h.honest⟩
  by_cases hc : t.committed = true
  · cases w <;> simpa only [Write.apply, Update, Delete, if_pos hc]
  · have husable := Bool.eq_false_iff.mpr hc
    cases w with
    | delete key =>
      rw [Write.strands_iff husable key rfl] at hstr
      rw [Write.apply, Delete, if_neg hc]
      exact (hcount _ _).deleteRoot hstr
    | update key v =>
      rw [Write.apply, Update, if_neg hc, Trie.update]
      by_cases hv : v = []
      · subst hv
        rw [Write.strands_iff husable key rfl] at hstr
        rw [if_neg (fun h => h rfl), Write.tree_update_nil]
        exact (hcount _ _).deleteRoot hstr
      · rw [if_pos (fun h => hv (length_eq_zero_iff.mp h))]
        exact (hcount _ _).insertRoot hw.1 ⟨hv, hw.2⟩

/-- The trie after a run of writes whose errors are ignored. -/
def writeAll (t : Trie) : List Write → Trie
  | [] => t
  | w :: ws => writeAll (w.apply t).1 ws

/-- The tree after the writes of the run that did not fail. -/
noncomputable def treeAfter (t : Trie) (T : TrieTree) : List Write → TrieTree
  | [] => T
  | w :: ws => treeAfter (w.apply t).1 (w.tree T (w.apply t).2) ws

/-- A run that strands no branch. -/
def Unstranded (t : Trie) : List Write → Prop
  | [] => True
  | w :: ws => w.Ok ∧ ¬ w.Strands t ∧ Unstranded (w.apply t).1 ws

/-- Over a run that strands no branch exactly the writes that succeeded count. -/
theorem Backed.writeAll (h : Backed keccak T₀ t T) {ws : List Write} (hws : Unstranded t ws) :
    Backed keccak T₀ (writeAll t ws) (treeAfter t T ws) ∧
      rehash keccak (Trie.writeAll t ws) = treeHash keccak (treeAfter t T ws) := by
  induction ws generalizing t T with
  | nil => exact ⟨h, rehash_eq h.rep h.fits⟩
  | cons w ws ih => exact ih (h.apply hws.1 hws.2.1) hws.2.2

end Failure

/-! ## A stranded branch -/

/-- Two keys that part at the root; the leaf of the second one is stored apart. -/
def branchTrie : TrieTree :=
  .full fun i =>
    if i = 1 then .short [0, term] (.value [0x01])
    else if i = 2 then .short [0, term] (.value (replicate 32 0x02))
    else .nil

/-- The trie opened with a reader that has the root and nothing else. -/
def branchWith (keccak : Bytes → Hash) (root : Hash) (blob : Bytes) : Trie where
  root := firstNode keccak (some root) branchTrie
  owner := zeroHash
  committed := false
  unhashed := 0
  uncommitted := 0
  reader :=
    { owner := zeroHash
      reader := some fun _ path _ => if path = [] then some blob else none }
  tracer := newTracer.onRead [] blob

def branchBlob : Bytes := enc keccak256 branchTrie

def branchRoot : Hash := keccak256 branchBlob

def branchOpened : Trie := branchWith keccak256 branchRoot branchBlob

def branchID : ID where
  stateRoot := branchRoot
  owner := zeroHash
  root := branchRoot

def branchDb : Hash → Option NodeReader := fun _ => branchOpened.reader.reader

theorem shape_branchTrie : TrieShape maxKey branchTrie := by
  have hkey : Terminated term ([0, term] : Path) := ⟨[0], rfl, by decide⟩
  refine .full (m := 2) (by decide) (fun i hi hne => ?_) (.inl rfl)
  by_cases h1 : i = 1
  · subst h1
    exact .leaf hkey (by decide) (by decide)
  · by_cases h2 : i = 2
    · subst h2
      exact .leaf hkey (by decide) (by decide)
    · exact absurd (by rw [if_neg h1, if_neg h2]) hne

theorem branchRoot_ne : branchRoot ≠ zeroHash ∧ branchRoot ≠ emptyRootHash := by
  decide +kernel

theorem branch_read (hash : Hash) : branchOpened.reader.node [] hash = .ok branchBlob := by
  have hne : branchBlob ≠ [] := enc_ne_nil (t := branchTrie) rfl
  have hblob : branchBlob.isEmpty = false := by
    rw [Bool.eq_false_iff, Ne, List.isEmpty_iff]
    exact hne
  rw [TrieReader.node, branchOpened, branchWith]
  simp only [if_true, hblob]
  rfl

theorem backed_branch : Backed keccak256 branchTrie branchOpened branchTrie where
  rep := (sim_resolve (storeOk_storeOf branchTrie) shape_branchTrie
    (storeOf_root keccak256 shape_branchTrie) newTracer).rep
  fits := Or.inr shape_branchTrie
  honest := by
    rintro p t ⟨ht, -⟩
    cases p with
    | nil =>
      cases ht
      exact .inl (branch_read _)
    | cons a p => exact .inr rfl

theorem new_branch : New branchID branchDb = .ok branchOpened := by
  have hreader : newTrieReader branchRoot zeroHash branchDb = .ok branchOpened.reader := by
    rw [newTrieReader, if_neg (not_or.mpr branchRoot_ne)]
    rfl
  have hdec : decodeNode (some branchRoot) branchBlob =
      .ok (firstNode keccak256 (some branchRoot) branchTrie) :=
    decodeNode_enc le_rfl shape_branchTrie _
  rw [New, branchID, hreader]
  simp only [ne_eq, branchRoot_ne, not_false_eq_true, and_self, if_true, resolveAndTrack,
    branch_read, hdec]
  rfl

section

variable (keccak : Bytes → Hash) (root : Hash) (blob : Bytes)

theorem branch_delete :
    ∃ t' e, (branchWith keccak root blob).Delete [0x10] = (t', .error e) ∧
      (t'.Get [0x10]).2 = .ok none :=
  ⟨_, _, rfl, rfl⟩

theorem branch_get :
    ((branchWith keccak root blob).Get [0x10]).2 = .ok (some [0x01]) := rfl

theorem branch_update :
    ∃ t' e, (branchWith keccak root blob).Update [0x20] [0x05] = (t', .error e) :=
  ⟨_, _, rfl⟩

end

theorem failed_write_alike_iff_branch :
    ∃ t' e, Backed keccak256 branchTrie branchOpened branchTrie ∧
      (Write.update [0x20] [0x05]).apply branchOpened = (t', .error e) ∧
      Alike keccak256 branchOpened t' := by
  obtain ⟨t', e, heq⟩ := branch_update keccak256 branchRoot branchBlob
  refine ⟨t', e, backed_branch, heq, ?_⟩
  refine (failed_write_alike_iff backed_branch (.update [0x20] [0x05]) heq).mpr ?_
  rintro ⟨-, key, hkey, -⟩
  cases hkey

theorem writeAll_branch : rehash keccak256 (writeAll branchOpened [.update [0x20] [0x05]]) =
    treeHash keccak256 (treeAfter branchOpened branchTrie [.update [0x20] [0x05]]) := by
  have hws : Unstranded branchOpened [.update [0x20] [0x05]] := by
    refine ⟨⟨by decide, by decide⟩, ?_, trivial⟩
    rintro ⟨-, key, hkey, -⟩
    cases hkey
  exact (backed_branch.writeAll hws).2

/-- The only sibling is not there: the entry is gone although `Delete` fails. -/
theorem failed_delete_loses_entry : New branchID branchDb = .ok branchOpened ∧
      Backed keccak256 branchTrie branchOpened branchTrie ∧
      ∃ t' e, (Write.delete [0x10]).apply branchOpened = (t', .error e) ∧
        (branchOpened.Get [0x10]).2 = .ok (some [0x01]) ∧ (t'.Get [0x10]).2 = .ok none ∧
        ¬ Alike keccak256 branchOpened t' := by
  obtain ⟨t', e, heq, hafter⟩ := branch_delete keccak256 branchRoot branchBlob
  have hbefore := branch_get keccak256 branchRoot branchBlob
  refine ⟨new_branch, backed_branch, t', e, heq, hbefore, hafter, fun halike => ?_⟩
  have hsame := halike.get [0x10]
  rw [hafter, branchOpened, hbefore] at hsame
  cases hsame

end GoEthereum.Trie

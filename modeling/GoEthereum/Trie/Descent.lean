import GoEthereum.Lib.Radix.Update
import GoEthereum.Trie.Rep

/-!
# Lookups and insertions

On a node that stands for a tree, `get` returns the tree's entry, and `insert`
leads to a node for the tree with the entry in it, unless the reader does not have a
node they need. The bound on a descent counts two steps for every nibble of the key,
one to resolve a node and one to go below it.
-/

namespace GoEthereum.Trie

open Radix (Tree Terminated Word)
open Radix.Tree List Function

variable {n : Node} {k p : Path} {t : TrieTree}

/-- What a descent meets: a trie with a key, or a value slot with nothing left of it. -/
def Slot (N : Nat) (t : TrieTree) (k : Path) : Prop :=
  (Terminated term k ∧ TrieFits N t) ∨ (k = [] ∧ (t = .nil ∨ ∃ v, ValueOk v ∧ t = .value v))

theorem slot_full {N : Nat} {ts : Nibble → TrieTree} (h : TrieShape N (.full ts)) {a : Nibble}
    (hk : Terminated term (a :: k)) : Slot N (ts a) k := by
  rcases Radix.terminated_cons_iff.mp hk with ⟨rfl, rfl⟩ | ⟨ha, hk⟩
  · exact .inr ⟨rfl, h.valueSlot⟩
  · exact .inl ⟨hk, (h.slot ha).mono (Nat.sub_le N 1)⟩

theorem slot_short {N : Nat} {k' : Path} {c : TrieTree} (h : TrieShape N (.short k c))
    (hk : Terminated term (k ++ k')) : Slot N c k' := by
  cases h with
  | leaf hp _ hv =>
    have hnil := hp.eq_of_append hk
    exact .inr ⟨hnil, .inr ⟨_, hv, rfl⟩⟩
  | ext hne hp hn hts =>
    have hk' : k' ≠ [] := by
      rintro rfl
      rw [append_nil] at hk
      exact hp hk.mem
    exact .inl ⟨((Radix.terminated_append_iff hk').mp hk).2, .inr (hts.mono (by omega))⟩

/-- A slot with a node in it has a key to follow. -/
theorem Slot.shape {N : Nat} (h : Slot N t k) (hn : t.isNode = true) :
    Terminated term k ∧ TrieShape N t := by
  rcases h with ⟨hk, ht⟩ | ⟨-, rfl | ⟨v, -, rfl⟩⟩
  · rcases ht with rfl | ht
    · cases hn
    · exact ⟨hk, ht⟩
  · cases hn
  · cases hn

theorem Slot.value {N : Nat} {v : Bytes} (h : Slot N (.value v) k) : k = [] ∧ ValueOk v := by
  rcases h with ⟨-, ht⟩ | ⟨hk, hnil | ⟨w, hw, heq⟩⟩
  · rcases ht with ht | ht
    · cases ht
    · cases ht
  · cases hnil
  · cases heq
    exact ⟨hk, hw⟩

/-- The steps a descent for a key takes from a node. -/
def stepsFor : Node → Path → Nat
  | .hash _, k => 2 * k.length + 2
  | _, k => 2 * k.length + 1

theorem stepsFor_le (n : Node) (k : Path) : stepsFor n k ≤ 2 * k.length + 2 := by
  cases n <;> simp [stepsFor]

theorem stepsFor_firstNode (keccak : Bytes → Hash) (hash : Option Hash) (t : TrieTree)
    (k : Path) : stepsFor (firstNode keccak hash t) k = 2 * k.length + 1 := by
  cases t <;> rfl

section Descent

variable {keccak : Bytes → Hash} {S : Path → TrieTree → Prop} {r : TrieReader} {N : Nat}

/-- **Induction along a descent** for a key: to the child of a short node or of a branch, and
from a hash node to what is stored there. Where the key leaves a short node it ends. -/
theorem descend (hS : StoreOk keccak S) {motive : Nat → Path → Node → TrieTree → Path → Prop}
    (nil : ∀ fuel p k, motive (fuel + 1) p .nil .nil k)
    (value : ∀ fuel p v, motive (fuel + 1) p (.value v) (.value v) [])
    (leave : ∀ fuel p q x key y k m c f, x ≠ y →
      Rep keccak S p (.short (q ++ y :: k) m f) (.short (q ++ y :: k) c) →
      motive (fuel + 2) p (.short (q ++ y :: k) m f) (.short (q ++ y :: k) c) (q ++ x :: key))
    (short : ∀ fuel p q m c f k, Rep keccak S p (.short q m f) (.short q c) →
      TrieShape N (.short q c) → Terminated term (q ++ k) → motive fuel (p ++ q) m c k →
      motive (fuel + 1) p (.short q m f) (.short q c) (q ++ k))
    (full : ∀ fuel p ns ts f a k, Rep keccak S p (.full ns f) (.full ts) →
      TrieShape N (.full ts) → Terminated term (a :: k) → stepsFor (ns a) k ≤ fuel →
      motive fuel (p ++ [a]) (ns a) (ts a) k →
      motive (fuel + 1) p (.full ns f) (.full ts) (a :: k))
    (hash : ∀ fuel p t k, t.isNode = true → S p t → TrieShape N t → Terminated term k →
      motive fuel p (firstNode keccak (some (keccak (enc keccak t))) t) t k →
      motive (fuel + 1) p (.hash (keccak (enc keccak t))) t k) :
    ∀ (fuel : Nat) {n : Node} {t : TrieTree} {p k : Path}, Rep keccak S p n t → Slot N t k →
      stepsFor n k ≤ fuel → motive fuel p n t k
  | 0, n, _, _, _, _, _, hfuel => by
    cases n <;> exact absurd hfuel (Nat.not_succ_le_zero _)
  | fuel + 1, n, t, p, k, hrep, hslot, hfuel => by
    have below := @descend hS motive nil value leave short full hash fuel
    cases id hrep with
    | nil => exact nil fuel p k
    | value _ v =>
      obtain ⟨rfl, -⟩ := hslot.value
      exact value fuel p v
    | @short _ q m c f hc =>
      obtain ⟨hk, hshape⟩ := hslot.shape rfl
      rcases hk.cases hshape.word.1 with ⟨k', rfl⟩ | ⟨q', x, key, y, q'', hxy, rfl, rfl⟩
      · have hlen : 0 < q.length := length_pos_iff.mpr hshape.word.2
        have hle := stepsFor_le m k'
        simp only [stepsFor, length_append] at hfuel
        exact short fuel p q m c f k' hrep hshape hk (below hc (slot_short hshape hk) (by omega))
      obtain ⟨fuel, rfl⟩ : ∃ m, fuel = m + 1 := by
        refine Nat.exists_eq_add_one.mpr ?_
        simp only [stepsFor, length_append, length_cons] at hfuel
        omega
      exact leave fuel p q' x key y q'' m c f hxy hrep
    | @full _ ns ts f hns =>
      obtain ⟨hk, hshape⟩ := hslot.shape rfl
      obtain ⟨a, k, rfl⟩ := exists_cons_of_ne_nil hk.ne_nil
      have hsteps : stepsFor (ns a) k ≤ fuel := by
        have hle := stepsFor_le (ns a) k
        simp only [stepsFor, length_cons] at hfuel
        omega
      exact full fuel p ns ts f a k hrep hshape hk hsteps
        (below (hns a) (slot_full hshape hk) hsteps)
    | hash hnode _ hs =>
      obtain ⟨hk, hshape⟩ := hslot.shape hnode
      refine hash fuel p t k hnode hs hshape hk
        (below (sim_resolve hS hshape hs newTracer).rep hslot ?_)
      rw [stepsFor_firstNode]
      simp only [stepsFor] at hfuel
      omega

/-! ## `get` -/

/-- The outcome of `get` on a node for `t`. -/
inductive GetSpec (keccak : Bytes → Hash) (S : Path → TrieTree → Prop) (r : TrieReader)
    (p : Path) (n : Node) (t : TrieTree) (tr : Tracer) (k : Path) :
    Tracer × Except Err (Option Bytes × Node × Bool) → Prop where
  | found {tr' : Tracer} {n' : Node} {b : Bool} : Sim keccak S p n t tr n' t tr' →
      (Cached n → Cached n') → (b = false → n' = n) →
      GetSpec keccak S r p n t tr k (tr', .ok (t.lookup k, n', b))
  | lacks {tr' : Tracer} {e : Err} : Lacks keccak S r e →
      GetSpec keccak S r p n t tr k (tr', .error e)

theorem get_spec (hS : StoreOk keccak S) (hr : Honest keccak S r) (hN : N ≤ maxKey) (fuel : Nat)
    {n : Node} {t : TrieTree} {p k : Path} (tr : Tracer) (hrep : Rep keccak S p n t)
    (hslot : Slot N t k) (hfuel : stepsFor n k ≤ fuel) :
    GetSpec keccak S r p n t tr k (get r fuel tr n p k) := by
  have hidle : ∀ {p n t k tr}, Rep keccak S p n t →
      GetSpec keccak S r p n t tr k (tr, .ok (t.lookup k, n, false)) := fun hrep =>
    .found (Sim.idle hrep (Idle.refl _ _)) id fun _ => rfl
  refine descend hS (motive := fun fuel p n t k => ∀ tr, GetSpec keccak S r p n t tr k
    (get r fuel tr n p k)) ?nil ?value ?leave ?short ?full ?hash fuel hrep hslot hfuel tr
  case nil => exact fun fuel p k tr => hidle (.nil p)
  case value => exact fun fuel p v tr => hidle (.value p v)
  case leave =>
    intro fuel p q x key y k m c f hxy hrep tr
    have hq := Radix.not_prefix_of_fork hxy q key k
    rw [get, if_neg hq, ← lookup_short_eq_none c hq]
    exact hidle hrep
  case short =>
    intro fuel p q m c f k hrep hshape hk ih tr
    specialize ih tr
    rw [get, if_pos (prefix_append q k), drop_left]
    generalize get r _ _ _ _ _ = out at ih ⊢
    cases ih with
    | lacks he => exact .lacks he
    | @found _ n' b hsim hcached hb =>
      have hkeep : (if b = true then n' else m) = n' := by
        cases b with
        | true => rfl
        | false => exact (hb rfl).symm
      rw [← lookup_short_append q c k]
      simp only [hkeep]
      cases hrep with
      | short hc hf hset =>
        refine .found (hsim.short hshape.word.2 (.short hsim.rep hf ?_)) id ?_
        · intro hne hl
          exact hcached (hset hne hl)
        · intro hbf
          rw [hb hbf]
  case full =>
    intro fuel p ns ts f a k hrep hshape hk _ ih tr
    specialize ih tr
    rw [get]
    generalize get r _ _ _ _ _ = out at ih ⊢
    cases ih with
    | lacks he => exact .lacks he
    | @found _ n' b hsim hcached hb =>
      have hkeep : (if b = true then Function.update ns a n' else ns) = Function.update ns a n' := by
        cases b with
        | true => rfl
        | false => rw [hb rfl, update_eq_self, ite_self]
      have hts : Function.update ts a (ts a) = ts := update_eq_self a ts
      have hrep' : Rep keccak S p (.full (Function.update ns a n') f) (.full ts) := by
        cases hrep with
        | full hns hf hset =>
          refine .full (fun i => ?_) hf fun hne i hl => ?_
          · have := rep_update hns hsim.rep i
            rwa [hts] at this
          · by_cases hi : i = a
            · subst hi
              rw [update_self]
              exact hcached (hset hne i hl)
            · rw [update_of_ne hi]
              exact hset hne i hl
      rw [← lookup_full_cons ts a k]
      simp only [hkeep]
      have hsim' := hsim.full (f := f) (by rw [hts]; exact hrep')
      rw [hts] at hsim'
      refine .found hsim' id ?_
      intro hbf
      rw [hb hbf, update_eq_self]
  case hash =>
    intro fuel p t k hnode hs hshape _ ih tr
    rw [get]
    rcases resolveAndTrack_cases hr hN hshape hs tr with ⟨-, hok⟩ | ⟨e, he, herr⟩
    · specialize ih (tr.onRead p (enc keccak t))
      simp only [hok]
      generalize get r _ _ _ _ _ = out at ih ⊢
      cases ih with
      | lacks he => exact .lacks he
      | @found _ n' b hsim hcached hb =>
        refine .found ((sim_resolve hS hshape hs tr).trans hsim) (fun _ => hcached ?_) (by rintro ⟨⟩)
        cases t with
        | nil => cases hnode
        | value v => cases hnode
        | short q c => exact Option.some_ne_none _
        | full ts => exact Option.some_ne_none _
    · simp only [herr]
      exact .lacks he

/-! ## `insert` -/

/-- A node over a word, if there is one. -/
def graftNode : Path → Node → Node
  | [], n => n
  | a :: k, n => .short (a :: k) n newFlag

/-- The tracer's record of it. -/
def traceGraft (tr : Tracer) (p k : Path) : Tracer :=
  if k = [] then tr else tr.onInsert p

theorem insert_nil_node (fuel : Nat) (tr : Tracer) (p k : Path) (value : Node) :
    insert r (fuel + 1) tr .nil p k value = (traceGraft tr p k, .ok (true, graftNode k value)) := by
  cases k with
  | nil => rfl
  | cons a k => rfl

theorem insert_fork_node (fuel : Nat) (tr : Tracer) {x y : Nibble} (hxy : x ≠ y)
    (p q k key : Path) (val : Node) (f : NodeFlag) (value : Node) :
    insert r (fuel + 2) tr (.short (q ++ y :: k) val f) p (q ++ x :: key) value =
      (traceGraft (traceGraft (traceGraft tr (p ++ (q ++ [y])) k) (p ++ (q ++ [x])) key) (p ++ q) q,
        .ok (true, graftNode q (.full (Function.update
          (Function.update (fun _ => .nil) y (graftNode k val)) x (graftNode key value))
          newFlag))) := by
  have hlen : q.length ≠ (q ++ y :: k).length := by
    rw [length_append, length_cons]
    omega
  have htake : ∀ (z : Nibble) (l : Path), (q ++ z :: l).take (q.length + 1) = q ++ [z] := by
    intro z l
    simp [take_append]
  cases hqk : q ++ x :: key with
  | nil => exact absurd hqk (append_ne_nil_of_right_ne_nil q (cons_ne_nil x key))
  | cons a key' =>
    rw [insert, ← hqk]
    simp only [Radix.prefixLen_fork hxy, if_neg hlen, drop_left, htake, insert_nil_node, take_left]
    cases q with
    | nil => rfl
    | cons b q => rfl

theorem insert_append_node (fuel : Nat) (tr : Tracer) {q : Path} (hq : q ≠ []) (p k : Path)
    (val : Node) (f : NodeFlag) (value : Node) :
    insert r (fuel + 1) tr (.short q val f) p (q ++ k) value =
      match insert r fuel tr val (p ++ q) k value with
      | (tr, .error e) => (tr, .error e)
      | (tr, .ok (dirty, nn)) =>
        if dirty then (tr, .ok (true, .short q nn newFlag))
        else (tr, .ok (false, .short q val f)) := by
  cases q with
  | nil => exact absurd rfl hq
  | cons b q =>
    rw [cons_append, insert, ← cons_append]
    simp only [Radix.prefixLen_append_self, if_true, take_left, drop_left] <;> rfl

theorem rep_graftNode (h : Rep keccak S (p ++ k) n t) :
    Rep keccak S p (graftNode k n) (graft k t) := by
  cases k with
  | nil =>
    rw [append_nil] at h
    exact h
  | cons a k => exact h.short_new

theorem hashAbove_graftNode (k : Path) (n : Node) {r : Path} (h : HashAbove n r) :
    HashAbove (graftNode k n) (k ++ r) := by
  cases k with
  | nil => exact h
  | cons a k => exact (hashAbove_short (a :: k) n newFlag _).mpr ⟨r, rfl, h⟩

@[simp] theorem traceGraft_accessList (tr : Tracer) (p k : Path) :
    (traceGraft tr p k).accessList = tr.accessList := by
  unfold traceGraft
  split
  · rfl
  · rw [onInsert_accessList]

theorem moves_traceGraft {p r₀ : Path} {E : Path → Prop} (tr : Tracer) (k : Path)
    (hE : k ≠ [] → ¬ E r₀) :
    Moves p E (fun r => E r ∨ (k ≠ [] ∧ r = r₀)) tr (traceGraft tr (p ++ r₀) k) := by
  unfold traceGraft
  by_cases hk : k = []
  · rw [if_pos hk]
    refine Moves.of_iff (fun r => ?_) rfl rfl
    exact or_iff_left fun h => h.1 hk
  · rw [if_neg hk]
    refine moves_onInsert tr (hE hk) fun r => ?_
    exact or_congr Iff.rfl (and_iff_right hk)

/-- Splitting a short node at the place where the key leaves it. -/
theorem sim_fork {x y : Nibble} (hxy : x ≠ y) {q : Path} {c : TrieTree} {f : NodeFlag}
    (hc : Rep keccak S (p ++ (q ++ y :: k)) n c) (key : Path) (v : Bytes) (tr : Tracer) :
    Sim keccak S p (.short (q ++ y :: k) n f) (.short (q ++ y :: k) c) tr
      (graftNode q (.full (Function.update
        (Function.update (fun _ => .nil) y (graftNode k n)) x (graftNode key (.value v)))
        newFlag))
      (graft q (fork x y key k c v))
      (traceGraft (traceGraft (traceGraft tr (p ++ (q ++ [y])) k) (p ++ (q ++ [x])) key)
        (p ++ q) q) where
  rep := by
    refine rep_graftNode (Rep.full_new fun i => ?_)
    refine rep_update (fun i => rep_update (fun i => .nil _) ?_ i) (rep_graftNode (.value _ v)) i
    refine rep_graftNode ?_
    rwa [append_assoc, append_assoc, singleton_append]
  moves := by
    refine ((moves_traceGraft tr k ?_).trans
      ((moves_traceGraft _ key ?_).trans (moves_traceGraft _ q ?_))).trans
      (Moves.of_iff (fun r => hasNode_graft_fork hxy q key k c v r) rfl rfl)
    · intro hk
      rw [hasNode_short]
      rintro (hnil | ⟨r', heq, -⟩)
      · exact concat_ne_nil y q hnil
      · rw [append_assoc, append_right_inj, cons_append, cons.injEq] at heq
        exact hk (append_eq_nil_iff.mp heq.2.symm).1
    · intro _
      rw [hasNode_short]
      rintro ((hnil | ⟨r', heq, -⟩) | ⟨-, heq⟩)
      · exact concat_ne_nil x q hnil
      · rw [append_assoc, append_right_inj, cons_append, cons.injEq] at heq
        exact hxy heq.1
      · rw [append_right_inj, cons.injEq] at heq
        exact hxy heq.1
    · intro hq
      rw [hasNode_short]
      rintro (((hnil | ⟨r', heq, -⟩) | ⟨-, heq⟩) | ⟨-, heq⟩)
      · exact hq hnil
      · rw [append_assoc, self_eq_append_right] at heq
        cases heq
      · rw [self_eq_append_right] at heq
        cases heq
      · rw [self_eq_append_right] at heq
        cases heq
  reads := Reads.of_accessList (by simp)
  covers _ hcov := by
    refine hcov.of_hashAbove (by simp) fun r hr => ?_
    obtain ⟨r', rfl, hr'⟩ := (hashAbove_short _ n f r).mp hr
    rw [append_assoc]
    refine hashAbove_graftNode q _ ?_
    rw [cons_append, HashAbove, update_of_ne (Ne.symm hxy), update_self]
    exact hashAbove_graftNode k n hr'

/-- The outcome of `insert` on a node for `t`. -/
inductive InsertSpec (keccak : Bytes → Hash) (S : Path → TrieTree → Prop) (r : TrieReader)
    (p : Path) (n : Node) (t : TrieTree) (tr : Tracer) (k : Path) (v : Bytes) :
    Tracer × Except Err (Bool × Node) → Prop where
  | changed {tr' : Tracer} {n' : Node} : Sim keccak S p n t tr n' (t.insert k v) tr' →
      InsertSpec keccak S r p n t tr k v (tr', .ok (true, n'))
  | same {tr' : Tracer} {n' : Node} : t.insert k v = t → Idle keccak S p tr tr' →
      Sim keccak S p n t tr n' t tr' →
      InsertSpec keccak S r p n t tr k v (tr', .ok (false, n'))
  | lacks {tr' : Tracer} {e : Err} : Lacks keccak S r e →
      InsertSpec keccak S r p n t tr k v (tr', .error e)

/-- A leaf in an empty place. -/
theorem sim_leaf (p : Path) (hk : k ≠ []) (v : Bytes) (tr : Tracer) :
    Sim keccak S p .nil .nil tr (graftNode k (.value v)) (graft k (.value v))
      (traceGraft tr p k) where
  rep := rep_graftNode (.value _ v)
  moves := by
    have h := @moves_traceGraft p [] (Radix.Tree.nil : TrieTree).HasNode tr k fun _ => hasNode_nil []
    rw [append_nil] at h
    refine h.trans (Moves.of_iff (fun r => ?_) rfl rfl)
    rw [hasNode_graft]
    constructor
    · rintro (⟨hr, -⟩ | ⟨r', -, h⟩)
      · exact .inr ⟨hk, hr⟩
      · exact absurd h (hasNode_value v r')
    · rintro (h | ⟨-, hr⟩)
      · exact absurd h (hasNode_nil r)
      · exact .inl ⟨hr, hk⟩
  reads := Reads.of_accessList (by simp)
  covers _ hcov := hcov.of_hashAbove (by simp) fun r hr => absurd hr (not_hashAbove_nil r)

theorem sim_value (hn : ∀ r, ¬ HashAbove n r) (ht : ∀ r, ¬ t.HasNode r) (v : Bytes) (tr : Tracer) :
    Sim keccak S p n t tr (.value v) (.value v) tr where
  rep := .value p v
  moves := Moves.of_iff (fun r => iff_of_false (hasNode_value v r) (ht r)) rfl rfl
  reads := Reads.refl p tr
  covers _ hcov := hcov.of_hashAbove rfl fun r hr => absurd hr (hn r)

theorem insert_spec (hS : StoreOk keccak S) (hr : Honest keccak S r) (hN : N ≤ maxKey) (v : Bytes)
    (fuel : Nat) {n : Node} {t : TrieTree} {p k : Path} (tr : Tracer) (hrep : Rep keccak S p n t)
    (hslot : Slot N t k) (hfuel : stepsFor n k ≤ fuel) :
    InsertSpec keccak S r p n t tr k v (insert r fuel tr n p k (.value v)) := by
  refine descend hS (motive := fun fuel p n t k => ∀ tr, InsertSpec keccak S r p n t tr k v
    (insert r fuel tr n p k (.value v))) ?nil ?value ?leave ?short ?full ?hash
    fuel hrep hslot hfuel tr
  case nil =>
    intro fuel p k tr
    rw [insert_nil_node]
    refine .changed ?_
    by_cases hk : k = []
    · subst hk
      exact sim_value not_hashAbove_nil hasNode_nil v tr
    · rw [Radix.Tree.insert_nil]
      exact sim_leaf p hk v tr
  case value =>
    intro fuel p w tr
    by_cases hw : w = v
    · subst hw
      rw [insert, decide_eq_false (fun h => h rfl)]
      exact .same rfl (Idle.refl p tr) (Sim.idle (.value p w) (Idle.refl p tr))
    · rw [insert, decide_eq_true hw]
      exact .changed (sim_value (not_hashAbove_value w) (hasNode_value w) v tr)
  case leave =>
    intro fuel p q x key y k m c f hxy hrep tr
    cases hrep with
    | short hc =>
      rw [insert_fork_node fuel tr hxy]
      refine .changed ?_
      rw [insert_short_fork hxy]
      exact sim_fork hxy hc key v tr
  case short =>
    intro fuel p q m c f k hrep hshape hk ih tr
    have hq := hshape.word.2
    specialize ih tr
    rw [insert_append_node fuel tr hq]
    generalize insert r _ _ _ _ _ _ = out at ih ⊢
    cases ih with
    | lacks he => exact .lacks he
    | changed hsim =>
      refine .changed ?_
      rw [insert_short_append hq]
      exact hsim.short hq hsim.rep.short_new
    | same heq hidle hsim =>
      refine .same ?_ hidle.mono (Sim.idle hrep hidle.mono)
      rw [insert_short_append hq, heq]
  case full =>
    intro fuel p ns ts f a k hrep hshape hk _ ih tr
    specialize ih tr
    rw [insert]
    generalize insert r _ _ _ _ _ _ = out at ih ⊢
    cases ih with
    | lacks he => exact .lacks he
    | changed hsim =>
      cases hrep with
      | full hns => exact .changed (hsim.full (Rep.full_new (rep_update hns hsim.rep)))
    | same heq hidle hsim =>
      refine .same ?_ hidle.mono (Sim.idle hrep hidle.mono)
      rw [insert_full_cons, heq, update_eq_self]
  case hash =>
    intro fuel p t k hnode hs hshape hk ih tr
    obtain ⟨a, k, rfl⟩ := exists_cons_of_ne_nil hk.ne_nil
    rw [insert]
    rcases resolveAndTrack_cases hr hN hshape hs tr with ⟨-, hok⟩ | ⟨e, he, herr⟩
    · have hres := sim_resolve hS hshape hs tr
      specialize ih (tr.onRead p (enc keccak t))
      simp only [hok]
      generalize insert r _ _ _ _ _ _ = out at ih ⊢
      cases ih with
      | lacks he => exact .lacks he
      | changed hsim => exact .changed (hres.trans hsim)
      | same heq hidle hsim =>
        refine .same heq ((idle_onRead keccak hs tr).trans hidle) (hres.trans ?_)
        exact Sim.idle hres.rep hidle
    · simp only [herr]
      exact .lacks he

end Descent

end GoEthereum.Trie

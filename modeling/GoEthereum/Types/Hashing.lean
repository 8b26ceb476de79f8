import GoEthereum.Rlp.Integers
import GoEthereum.Trie.Stacked

/-!
# The root of a list

`DeriveSha` of `core/types/hashing.go`. The keys of the items are the RLP encodings of their
indices; in the order of the loops they ascend, and none is the start of another, so that the
stack trie takes every one of them.
-/

namespace GoEthereum.Types

open List Trie Rlp

/-- The indices in the order of the three loops of `DeriveSha`. -/
def deriveOrder (n : Nat) : List Nat :=
  range' 1 (min n 0x80 - 1) ++ (if 0 < n then [0] else []) ++ range' 0x80 (n - 0x80)

/-- What is given to the hasher; `items` are the encodings of `encodeForDerive`. -/
def derivePairs (items : List Bytes) : List (Bytes × Bytes) :=
  (deriveOrder items.length).map fun i => (AppendUint64 [] i, items.getD i [])

/-- `hasher.Update`, whose error is omitted; none is a panic. -/
def deriveUpdate (keccak : Bytes → Hash) (st : StackTrie) (e : Bytes × Bytes) :
    Option StackTrie :=
  match st.Update keccak e.1 e.2 with
  | .ok st => some st
  | .error .panic => none
  | .error _ => some st

/-- `DeriveSha` with a stack trie. -/
def DeriveSha (keccak : Bytes → Hash) (items : List Bytes) : Option Hash :=
  ((derivePairs items).foldlM (deriveUpdate keccak) NewStackTrie).map fun st => (st.Hash keccak).2

/-! ## The order of the keys -/

variable {i j n : Nat}

/-- Index `i` comes before `j`. -/
def Before (i j : Nat) : Prop := 0 < i ∧ i < j ∨ 0 < i ∧ i < 128 ∧ j = 0 ∨ i = 0 ∧ 128 ≤ j

theorem pairwise_deriveOrder (n : Nat) : (deriveOrder n).Pairwise Before := by
  have hup : ∀ s m, 0 < s → (range' s m).Pairwise Before := by
    intro s m hs
    refine Pairwise.imp_of_mem (fun hi _ hlt => .inl ⟨?_, hlt⟩) (pairwise_lt_range' (n := m))
    have := (mem_range'_1.mp hi).1
    omega
  unfold deriveOrder
  refine pairwise_append.mpr ⟨pairwise_append.mpr ⟨hup _ _ (by decide), ?_, ?_⟩,
    hup _ _ (by decide), ?_⟩
  · split_ifs
    · exact pairwise_singleton _ _
    · exact .nil
  · intro i hi j hj
    have hi := mem_range'_1.mp hi
    split_ifs at hj
    · rw [mem_singleton.mp hj]
      exact .inr (.inl (by omega))
    · cases hj
  · intro i hi j hj
    have hj := (mem_range'_1.mp hj).1
    rcases mem_append.mp hi with hi | hi
    · have hi := mem_range'_1.mp hi
      exact .inl (by omega)
    · split_ifs at hi
      · rw [mem_singleton.mp hi]
        exact .inr (.inr ⟨rfl, hj⟩)
      · cases hi

theorem mem_deriveOrder : i ∈ deriveOrder n ↔ i < n := by
  unfold deriveOrder
  rw [mem_append, mem_append, mem_range'_1, mem_range'_1]
  split_ifs with h
  · rw [mem_singleton]
    omega
  · simp only [not_mem_nil, or_false]
    omega

/-- Of two integers of the same length the smaller one comes first. -/
theorem lt_of_beNat_lt {a b : Bytes} (hlen : a.length = b.length) (h : beNat a < beNat b) :
    a < b := by
  induction a generalizing b with
  | nil =>
    rw [eq_nil_of_length_eq_zero hlen.symm] at h
    exact absurd h (lt_irrefl _)
  | cons x a ih =>
    rcases b with _ | ⟨y, b⟩
    · cases hlen
    have hlen' : a.length = b.length := Nat.succ.inj hlen
    have hcons : ∀ (z : UInt8) (c : Bytes),
        beNat (z :: c) = z.toNat * 256 ^ c.length + beNat c := by
      intro z c
      rw [← singleton_append, beNat_append, beNat_singleton]
    rw [hcons, hcons, hlen'] at h
    rw [cons_lt_cons_iff]
    rcases Nat.lt_trichotomy x.toNat y.toNat with hxy | hxy | hxy
    · exact .inl (UInt8.lt_iff_toNat_lt.mpr hxy)
    · rw [hxy] at h
      exact .inr ⟨UInt8.toNat_inj.mp hxy, ih hlen' (by omega)⟩
    · -- a greater first byte outweighs all that follow
      have hb := beNat_lt b
      have hmul := Nat.mul_le_mul_right (256 ^ b.length) (Nat.succ_le_of_lt hxy)
      rw [Nat.succ_mul] at hmul
      omega

/-- A key is a tag, and after the tags from 0x80 on as many bytes as the tag says. -/
inductive Key (i : Nat) : Bytes → Prop where
  | small : 0 < i → i < 128 → Key i [UInt8.ofNat i]
  | large {k : Nat} : i = 0 ∨ 128 ≤ i → k ≤ 8 → i < 256 ^ k → 256 ^ k ≤ 256 * i + 1 →
      Key i (UInt8.ofNat (128 + k) :: beBytes k i)

theorem key_appendUint64 (h : i < 2 ^ 64) : Key i (AppendUint64 [] i) := by
  rw [appendUint64_eq [] h, nil_append]
  rcases Nat.eq_zero_or_pos i with rfl | hpos
  · exact .large (.inl rfl) (Nat.zero_le 8) Nat.one_pos le_rfl
  rcases Nat.lt_or_ge i 128 with hlt | hge
  · rw [writeInt_of_lt hpos hlt]
    exact .small hpos hlt
  have hle := Nat.pow_log_le_self 256 hpos.ne'
  have hup := Nat.lt_pow_succ_log_self (b := 256) (by decide) i
  have hk : Nat.log 256 i < 8 :=
    (Nat.log_lt_iff_lt_pow (by decide) hpos.ne').mpr (h.trans_eq (by norm_num))
  rw [writeInt_of_le hge hle hup, puthead_of_lt (by omega), singleton_append]
  refine .large (.inr hge) hk hup ?_
  rw [pow_succ]
  omega

theorem key_lt {a b : Bytes} (ha : Key i a) (hb : Key j b) (h : Before i j) :
    a < b ∧ ¬ a <+: b ∧ ¬ b <+: a := by
  have htag : ∀ {s t : Nat} {a b : Bytes}, s < t → t < 256 →
      UInt8.ofNat s :: a < UInt8.ofNat t :: b ∧ ¬ UInt8.ofNat s :: a <+: UInt8.ofNat t :: b ∧
        ¬ UInt8.ofNat t :: b <+: UInt8.ofNat s :: a := by
    intro s t a b hst ht
    have hlt : UInt8.ofNat s < UInt8.ofNat t := by
      rw [UInt8.lt_iff_toNat_lt, UInt8.toNat_ofNat', UInt8.toNat_ofNat']
      omega
    rw [cons_lt_cons_iff, cons_prefix_cons, cons_prefix_cons]
    exact ⟨.inl hlt, fun h => UInt8.ne_of_lt hlt h.1, fun h => UInt8.ne_of_lt hlt h.1.symm⟩
  unfold Before at h
  rcases ha with ⟨hi, hi'⟩ | ⟨hi, hk, hlt, hle⟩
  · rcases hb with ⟨hj, hj'⟩ | ⟨hj, hk', -, -⟩
    · exact htag (by omega) (by omega)
    · exact htag (by omega) (by omega)
  rename_i k
  rcases hb with ⟨hj, hj'⟩ | ⟨hj, hk', hlt', hle'⟩
  · omega
  rename_i k'
  have hij : i < j := by omega
  rcases Nat.lt_trichotomy k k' with hkk | rfl | hkk
  · exact htag (by omega) (by omega)
  · have hlen : (beBytes k i).length = (beBytes k j).length := by
      rw [beBytes_length, beBytes_length]
    have hval : beNat (beBytes k i) < beNat (beBytes k j) := by
      rwa [beNat_beBytes, beNat_beBytes, Nat.mod_eq_of_lt hlt, Nat.mod_eq_of_lt hlt']
    have hne : beBytes k i ≠ beBytes k j := fun heq => by
      rw [heq] at hval
      exact lt_irrefl _ hval
    rw [cons_lt_cons_iff, cons_prefix_cons, cons_prefix_cons]
    exact ⟨.inr ⟨rfl, lt_of_beNat_lt hlen hval⟩, fun h => hne (h.2.eq_of_length hlen),
      fun h => hne (h.2.eq_of_length hlen.symm).symm⟩
  · -- the longer integer is the greater one
    have hpow : 256 ^ (k' + 1) ≤ 256 ^ k := Nat.pow_le_pow_right (by decide) hkk
    rw [pow_succ] at hpow
    omega

/-! ## The stack trie -/

variable {keccak : Bytes → Hash} {items : List Bytes}

theorem pairwise_keys (hn : n < 2 ^ 63) : (deriveOrder n).Pairwise fun i j =>
    AppendUint64 [] i < AppendUint64 [] j ∧ ¬ AppendUint64 [] i <+: AppendUint64 [] j ∧
      ¬ AppendUint64 [] j <+: AppendUint64 [] i := by
  refine (pairwise_deriveOrder n).imp_of_mem fun hi hj h => ?_
  have hi := mem_deriveOrder.mp hi
  have hj := mem_deriveOrder.mp hj
  exact key_lt (key_appendUint64 (by omega)) (key_appendUint64 (by omega)) h

theorem mem_derivePairs {key value : Bytes} : (key, value) ∈ derivePairs items ↔
    ∃ i, items[i]? = some value ∧ key = AppendUint64 [] i := by
  unfold derivePairs
  simp only [mem_map, mem_deriveOrder, Prod.mk.injEq]
  constructor
  · rintro ⟨i, hi, rfl, rfl⟩
    refine ⟨i, ?_, rfl⟩
    rw [getD_eq_getElem _ _ hi, getElem?_eq_getElem hi]
  · rintro ⟨i, hi, rfl⟩
    obtain ⟨hlt, rfl⟩ := List.getElem?_eq_some_iff.mp hi
    exact ⟨i, hlt, rfl, getD_eq_getElem _ _ hlt⟩

theorem stackInput_derivePairs (hn : items.length < 2 ^ 63) (hitems : ∀ v ∈ items, ValueOk v) :
    StackInput (derivePairs items) where
  ascending := pairwise_map.mpr ((pairwise_keys hn).imp And.left)
  prefixFree := pairwise_map.mpr ((pairwise_keys hn).imp fun h => h.2.1)
  keys := by
    rintro ⟨key, value⟩ he
    obtain ⟨i, hi, rfl⟩ := mem_derivePairs.mp he
    obtain ⟨hlt, -⟩ := List.getElem?_eq_some_iff.mp hi
    have hkey := key_appendUint64 (i := i) (by omega)
    generalize AppendUint64 [] i = key at hkey ⊢
    rcases hkey with _ | ⟨-, hk, -, -⟩
    · exact ⟨cons_ne_nil _ _, Nat.one_lt_two_pow (by decide)⟩
    · refine ⟨cons_ne_nil _ _, ?_⟩
      show (beBytes _ i).length + 1 < 2 ^ 62
      rw [beBytes_length]
      omega
  values := by
    rintro ⟨key, value⟩ he
    obtain ⟨i, hi, rfl⟩ := mem_derivePairs.mp he
    exact hitems value (mem_of_getElem? hi)

theorem foldlM_of_updateAll {pairs : List (Bytes × Bytes)} {st st' : StackTrie}
    (h : updateAll keccak st pairs = .ok st') :
    pairs.foldlM (deriveUpdate keccak) st = some st' := by
  induction pairs generalizing st with
  | nil =>
    cases h
    rfl
  | cons e pairs ih =>
    obtain ⟨key, v⟩ := e
    rw [updateAll] at h
    rw [foldlM_cons, deriveUpdate]
    rcases hup : st.Update keccak key v with err | st₁
    · rw [hup] at h
      cases h
    · rw [hup] at h
      exact ih h

/-- `DeriveSha` is the root of a trie with the items under the encodings of their indices,
whatever calls have built it. Every index is given to the stack trie once, the keys ascend, none
is the start of another, and no update fails. -/
theorem deriveSha_eq_rootHash (keccak : Bytes → Hash) (items : List Bytes)
    (hn : items.length < 2 ^ 63) (hitems : ∀ v ∈ items, v ≠ [] ∧ v.length < 2 ^ 63) :
    (deriveOrder items.length).Perm (range items.length) ∧
    ((deriveOrder items.length).map (AppendUint64 [])).Pairwise
      (fun a b => a < b ∧ ¬ a <+: b ∧ ¬ b <+: a) ∧
    (∃ st, updateAll keccak NewStackTrie (derivePairs items) = .ok st ∧
      DeriveSha keccak items = some (st.Hash keccak).2) ∧
    ∀ ops, (∀ op ∈ ops, InMemory op) →
      (∀ key value, lastValue ops key = some value ↔
        ∃ i, items[i]? = some value ∧ key = AppendUint64 [] i) →
      ∃ s as, run keccak newSession ops = .ok (s, as) ∧
        DeriveSha keccak items = some (rootHash keccak s.trie).2 := by
  have hinput := stackInput_derivePairs hn hitems
  refine ⟨?_, pairwise_map.mpr (pairwise_keys hn), ?_, fun ops hops hsame => ?_⟩
  · have hnodup : (deriveOrder items.length).Nodup :=
      (pairwise_deriveOrder _).imp fun h heq => by
        unfold Before at h
        omega
    rw [perm_ext_iff_of_nodup hnodup nodup_range]
    intro i
    rw [mem_deriveOrder, mem_range]
  · obtain ⟨st, T, hup, -⟩ := (@stacks_new keccak).updateAll (derivePairs items) trieOk_nil
      hasEntries_nil (fun _ h => by cases h) hinput
    refine ⟨st, hup, ?_⟩
    rw [DeriveSha, foldlM_of_updateAll hup, Option.map_some]
  · obtain ⟨st, s, as, T, hup, hrun, hst, hopen, hentries⟩ :=
      @stacks_and_opened keccak _ hinput _ hops fun key value => by rw [hsame, mem_derivePairs]
    obtain ⟨t, hroot, -⟩ := hopen.rootHash
    refine ⟨s, as, hrun, ?_⟩
    rw [DeriveSha, foldlM_of_updateAll hup, hroot, Option.map_some]
    rcases hopen.ok.fits with rfl | hshape
    · -- no entries: the hash of both is that of the empty trie
      have hnone : derivePairs items = [] := by
        apply eq_nil_iff_forall_not_mem.mpr
        rintro ⟨key, value⟩ he
        cases (hentries key value).mpr he
      rw [hnone] at hup
      cases hup
      exact congrArg some (bytesToHash_val _)
    · rw [(hst.hash hshape).1]

theorem deriveSha_eq_rootHash_two_items :
    ∃ s as, run Keccak.keccak256 newSession [.update [0x80] [0x0a], .update [0x01] [0x0b]] =
        .ok (s, as) ∧
      DeriveSha Keccak.keccak256 [[0x0a], [0x0b]] = some (rootHash Keccak.keccak256 s.trie).2 := by
  refine (deriveSha_eq_rootHash Keccak.keccak256 [[0x0a], [0x0b]] (by decide) ?_).2.2.2 _ ?_ ?_
  · simp
  · simp [InMemory, KeyOk]
  · intro key value
    constructor
    · intro h
      by_cases h₁ : [0x01] = key
      · subst h₁
        exact ⟨1, h, rfl⟩
      · by_cases h₀ : [0x80] = key
        · subst h₀
          exact ⟨0, h, rfl⟩
        · simp [lastValue, writes, h₁, h₀] at h
    · rintro ⟨_ | _ | i, hi, rfl⟩
      · exact hi
      · exact hi
      · cases hi

end GoEthereum.Types

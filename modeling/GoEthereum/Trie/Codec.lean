import GoEthereum.Trie.Node

/-!
# The encoding of a trie

The tries of package `trie` as radix trees, their encoding, and what the decoder
makes of it. A child whose encoding has 32 bytes or more is referred to by its
hash, a smaller one is embedded. `decodeNode_enc` says that decoding the encoding
of a tree gives its first node with exactly those references.

Go measures slices with a signed 64-bit integer, so a hex key has fewer than
`2 ^ 63` nibbles and a value fewer than `2 ^ 63` bytes; with these bounds every size
fits into the length field of the encoding.
-/

namespace GoEthereum.Trie

open List

open Radix (Tree Terminated Word)
open Radix.Tree (Shape Fits)

variable {n : Nat} {k : Path}

/-- A trie without hashes. -/
abbrev TrieTree : Type := Tree Nibble Bytes

/-- A stored value: not empty, and a Go slice. -/
def ValueOk (v : Bytes) : Prop := v ≠ [] ∧ v.length < 2 ^ 63

variable {c t : TrieTree}

instance (v : Bytes) : Decidable (ValueOk v) :=
  inferInstanceAs (Decidable (v ≠ [] ∧ v.length < 2 ^ 63))

/-- The longest hex key. -/
def maxKey : Nat := 2 ^ 63

/-- Well-formed tries. -/
abbrev TrieShape (n : Nat) (t : TrieTree) : Prop := Shape term ValueOk n t

/-- Well-formed tries, the empty one included. -/
abbrev TrieFits (n : Nat) (t : TrieTree) : Prop := Fits term ValueOk n t

section Encode

variable (keccak : Bytes → Hash)

/-- A child is stored apart from its parent when its encoding has 32 bytes. -/
def apart (t : TrieTree) (e : Bytes) : Bool := t.isNode && decide (32 ≤ e.length)

/-- The encoding of a tree: of its first node, with references to the others. -/
def enc : TrieTree → Bytes
  | .nil => Rlp.emptyString
  | .value v => Rlp.writeBytes v
  | .short k c =>
    Rlp.list (Rlp.writeBytes (hexToCompact k) ++
      if apart c (enc c) then Rlp.writeBytes (keccak (enc c)).1 else enc c)
  | .full ts =>
    Rlp.list (slots.flatMap fun i =>
      if apart (ts i) (enc (ts i)) then Rlp.writeBytes (keccak (enc (ts i))).1
      else enc (ts i))

/-- What stands for a tree in its parent's encoding. -/
def ref (t : TrieTree) : Bytes :=
  if apart t (enc keccak t) then Rlp.writeBytes (keccak (enc keccak t)).1 else enc keccak t

/-- The first node of a tree as the decoder returns it, and the embedded ones. -/
def firstNode (hash : Option Hash) : TrieTree → Node
  | .nil => .nil
  | .value v => .value v
  | .short k c =>
    .short k (if apart c (enc keccak c) then .hash (keccak (enc keccak c))
      else firstNode none c) { hash := hash, dirty := false }
  | .full ts =>
    .full (fun i => if apart (ts i) (enc keccak (ts i)) then
        .hash (keccak (enc keccak (ts i))) else firstNode none (ts i))
      { hash := hash, dirty := false }

/-- The node that stands for a tree in a decoded parent. -/
def refNode (t : TrieTree) : Node :=
  if apart t (enc keccak t) then .hash (keccak (enc keccak t)) else firstNode keccak none t

theorem enc_short (k : Path) (c : TrieTree) : enc keccak (.short k c) =
      Rlp.list (Rlp.writeBytes (hexToCompact k) ++ ref keccak c) := rfl

theorem enc_full (ts : Nibble → TrieTree) :
    enc keccak (.full ts) = Rlp.list (slots.flatMap fun i => ref keccak (ts i)) := rfl

theorem firstNode_short (hash : Option Hash) (k : Path) (c : TrieTree) :
    firstNode keccak hash (.short k c) =
      .short k (refNode keccak c) { hash := hash, dirty := false } := rfl

theorem firstNode_full (hash : Option Hash) (ts : Nibble → TrieTree) :
    firstNode keccak hash (.full ts) =
      .full (fun i => refNode keccak (ts i)) { hash := hash, dirty := false } := rfl

variable {keccak}

theorem ref_of_apart (h : apart t (enc keccak t) = true) :
    ref keccak t = Rlp.writeBytes (keccak (enc keccak t)).1 := if_pos h

theorem ref_of_not_apart (h : ¬ apart t (enc keccak t) = true) :
    ref keccak t = enc keccak t := if_neg h

theorem refNode_of_apart (h : apart t (enc keccak t) = true) :
    refNode keccak t = .hash (keccak (enc keccak t)) := if_pos h

theorem refNode_of_not_apart (h : ¬ apart t (enc keccak t) = true) :
    refNode keccak t = firstNode keccak none t := if_neg h

theorem apart_iff {e : Bytes} : apart t e = true ↔ t.isNode = true ∧ 32 ≤ e.length := by
  simp [apart]

theorem enc_ne_nil (h : t.isNode = true) : enc keccak t ≠ [] := by
  cases t with
  | nil => cases h
  | value v => cases h
  | short k c => exact Rlp.list_ne_nil _
  | full ts => exact Rlp.list_ne_nil _

@[simp] theorem ref_nil : ref keccak .nil = Rlp.emptyString := rfl

@[simp] theorem ref_value (v : Bytes) : ref keccak (.value v) = Rlp.writeBytes v := rfl

/-! ## Sizes -/

theorem length_writeBytes_hash (h : Hash) : (Rlp.writeBytes h.1).length = 33 := by
  have hlen : h.1.length = 32 := h.2
  rw [Rlp.writeBytes_of_ne_singleton]
  · rw [length_append, hlen]
    rfl
  · intro x hx
    rw [hx] at hlen
    cases hlen

variable (keccak) in
theorem length_ref_le (h : t.isNode = true ∨ t = .nil) : (ref keccak t).length ≤ 33 := by
  rcases h with h | rfl
  · by_cases ha : apart t (enc keccak t) = true
    · rw [ref_of_apart ha, length_writeBytes_hash]
    · rw [ref_of_not_apart ha]
      rw [apart_iff, not_and] at ha
      have := ha h
      omega
  · rw [ref_nil]
    decide

variable (keccak) in
theorem length_ref_value_le (h : t = .nil ∨ ∃ v, ValueOk v ∧ t = .value v) :
    (ref keccak t).length ≤ 2 ^ 63 + 9 := by
  rcases h with rfl | ⟨v, hv, rfl⟩
  · rw [ref_nil]
    decide
  · have := Rlp.writeBytes_length_le v
    have := hv.2
    rw [ref_value]
    omega

theorem slots_eq : slots = (finRange 16).map Fin.castSucc ++ [term] := by decide

theorem flatMap_slots {γ : Type} (f : Nibble → List γ) :
    slots.flatMap f = ((finRange 16).map fun i => f i.castSucc).flatten ++ f term := by
  rw [slots_eq, flatMap_append, flatMap_singleton, flatMap_map, flatMap_def]

theorem castSucc_ne_term (i : Fin 16) : i.castSucc ≠ term :=
  Fin.ne_of_lt (Fin.castSucc_lt_last i)

theorem length_flatten_le {γ : Type} (l : List (List γ)) (b : Nat)
    (h : ∀ x ∈ l, x.length ≤ b) : l.flatten.length ≤ l.length * b := by
  induction l with
  | nil => simp
  | cons x l ih =>
    rw [forall_mem_cons] at h
    rw [flatten_cons, length_append, length_cons, Nat.add_mul]
    have := ih h.2
    have := h.1
    omega

theorem Fits.node_or_nil (h : TrieFits n t) : t.isNode = true ∨ t = .nil := by
  rcases h with h | h
  · exact .inr h
  · exact .inl h.isNode

theorem length_hexToCompact_lt (hn : n ≤ maxKey) (h : TrieShape n (.short k c)) :
    (hexToCompact k).length < 2 ^ 63 := by
  have hk : k.length ≤ n := by
    cases h with
    | leaf _ hk _ => exact hk
    | ext _ _ hk _ => omega
  have := length_hexToCompact_le k
  simp only [maxKey] at hn
  omega

/-- The payload of a node fits into the length field. -/
theorem payload_short_lt (hn : n ≤ maxKey) (h : TrieShape n (.short k c)) :
    (Rlp.writeBytes (hexToCompact k) ++ ref keccak c).length < 2 ^ 64 := by
  have hk : k.length ≤ n := by
    cases h with
    | leaf _ hk _ => exact hk
    | ext _ _ hk _ => omega
  have hc : (ref keccak c).length ≤ 2 ^ 63 + 9 := by
    cases h with
    | leaf _ _ hv => exact length_ref_value_le keccak (.inr ⟨_, hv, rfl⟩)
    | ext _ _ _ hts =>
      have := length_ref_le keccak (.inl hts.isNode)
      omega
  have := Rlp.writeBytes_length_le (hexToCompact k)
  have := length_hexToCompact_le k
  rw [length_append]
  simp only [maxKey] at hn
  omega

theorem payload_full_lt {ts : Nibble → TrieTree} (h : TrieShape n (.full ts)) :
    (slots.flatMap fun i => ref keccak (ts i)).length < 2 ^ 64 := by
  have hval := length_ref_value_le keccak h.valueSlot
  have hrest := length_flatten_le ((finRange 16).map fun i => ref keccak (ts i.castSucc))
    33 (by
      intro x hx
      obtain ⟨i, -, rfl⟩ := mem_map.mp hx
      exact length_ref_le keccak (Fits.node_or_nil (h.slot (castSucc_ne_term i))))
  rw [length_map, length_finRange] at hrest
  rw [flatMap_slots, length_append]
  omega

theorem item_ref_node (hn : n ≤ maxKey) (h : TrieShape n t) : Rlp.Item (ref keccak t) := by
  by_cases ha : apart t (enc keccak t) = true
  · rw [ref_of_apart ha]
    exact Rlp.item_writeBytes (by rw [(keccak _).2]; decide)
  rw [ref_of_not_apart ha]
  cases t with
  | nil => exact absurd rfl h.ne_nil
  | value v => cases h
  | short k c => exact Rlp.item_list (payload_short_lt hn h)
  | full ts => exact Rlp.item_list (payload_full_lt h)

theorem item_ref (hn : n ≤ maxKey) (h : TrieFits n t) : Rlp.Item (ref keccak t) := by
  rcases h with rfl | h
  · exact Rlp.item_writeBytes (by decide : (([] : Bytes).length) < 2 ^ 64)
  · exact item_ref_node hn h

theorem item_ref_value (h : t = .nil ∨ ∃ v, ValueOk v ∧ t = .value v) :
    Rlp.Item (ref keccak t) := by
  rcases h with rfl | ⟨v, hv, rfl⟩
  · exact Rlp.item_writeBytes (by decide : (([] : Bytes).length) < 2 ^ 64)
  · exact Rlp.item_writeBytes (lt_trans hv.2 (by decide))

/-! ## Decoding an encoded tree -/

variable (keccak) in
/-- An embedded node is shorter than the node it stands in. -/
theorem length_ref_lt_enc_short (k : Path) (c : TrieTree) :
    (ref keccak c).length < (enc keccak (.short k c)).length := by
  have := Rlp.lt_list_length (Rlp.writeBytes (hexToCompact k) ++ ref keccak c)
  rw [length_append] at this
  rw [enc_short]
  omega

variable (keccak) in
theorem length_ref_lt_enc_full (ts : Nibble → TrieTree) (i : Nibble) :
    (ref keccak (ts i)).length < (enc keccak (.full ts)).length := by
  have hmem : ref keccak (ts i) ∈ slots.map fun j => ref keccak (ts j) :=
    mem_map.mpr ⟨i, mem_finRange i, rfl⟩
  have hle := (sublist_flatten_of_mem hmem).length_le
  have := Rlp.lt_list_length (slots.flatMap fun j => ref keccak (ts j))
  rw [flatMap_def] at this
  rw [enc_full, flatMap_def]
  omega

variable (keccak) in
/-- A decoder reads a tree where it is embedded. -/
def Decodes (n : Nat) (dec : Bytes → Except DecodeError Node) (t : TrieTree) : Prop :=
  TrieShape n t → ref keccak t = enc keccak t → ∀ rest,
    dec (enc keccak t ++ rest) = .ok (firstNode keccak none t)

/-- `decodeRef` reads a reference, given that it reads embedded nodes. -/
theorem decodeRef_ref (hn : n ≤ maxKey) (h : TrieFits n t) {dec : Bytes → Except DecodeError Node}
    (rest : Bytes) (hdec : Decodes keccak n dec t) :
    decodeRef dec (ref keccak t ++ rest) = .ok (refNode keccak t, rest) := by
  rcases h with rfl | h
  · have hsplit : Rlp.split (Rlp.emptyString ++ rest) = .ok (.string, [], rest) :=
      Rlp.split_writeBytes (b := []) (by decide) rest
    rw [ref_nil, decodeRef, hsplit]
    rfl
  by_cases ha : apart t (enc keccak t) = true
  · -- a hash is a string of 32 bytes
    have hlen : (keccak (enc keccak t)).1.length = 32 := (keccak (enc keccak t)).2
    have hkind : Rlp.stringKind (keccak (enc keccak t)).1 = .string := by
      cases hb : (keccak (enc keccak t)).1 with
      | nil => rfl
      | cons x l =>
        cases l with
        | nil =>
          rw [hb] at hlen
          cases hlen
        | cons y l => rfl
    rw [ref_of_apart ha, refNode_of_apart ha, decodeRef,
      Rlp.split_writeBytes (by rw [hlen]; decide) rest, hkind]
    simp only [hlen]
    rfl
  · -- an embedded node is a list of fewer than 32 bytes
    have href := ref_of_not_apart ha
    have hsize : (enc keccak t).length < 32 := by
      rw [apart_iff, not_and, not_le] at ha
      exact ha h.isNode
    have hsplit : ∃ p, Rlp.split (enc keccak t ++ rest) = .ok (.list, p, rest) := by
      cases t with
      | nil => exact absurd rfl h.ne_nil
      | value v => cases h
      | short k c => exact ⟨_, Rlp.split_list (payload_short_lt hn h) rest⟩
      | full ts => exact ⟨_, Rlp.split_list (payload_full_lt h) rest⟩
    obtain ⟨p, hsplit⟩ := hsplit
    rw [href, refNode_of_not_apart ha, decodeRef, hsplit]
    simp only [length_append, Nat.add_sub_cancel, hdec h href rest]
    rw [if_neg (by omega)]

/-- The loop of `decodeFull` reads a sequence of references. -/
theorem decodeRefs_ref (hn : n ≤ maxKey) (dec : Bytes → Except DecodeError Node) (rest : Bytes) :
    ∀ (cs : List TrieTree) (i : Nat),
    (∀ t ∈ cs, TrieFits n t ∧ Decodes keccak n dec t) →
    decodeRefs dec i cs.length ((cs.map (ref keccak)).flatten ++ rest) =
      .ok (cs.map (refNode keccak), rest)
  | [], _, _ => rfl
  | t :: cs, i, h => by
    rw [forall_mem_cons] at h
    rw [map_cons, flatten_cons, append_assoc, length_cons, decodeRefs,
      decodeRef_ref hn h.1.1 _ h.1.2]
    simp only [decodeRefs_ref hn dec rest cs (i + 1) h.2, map_cons]

theorem decodeShort_enc (hn : n ≤ maxKey) (h : TrieShape n (.short k c)) (hash : Option Hash)
    (dec : Bytes → Except DecodeError Node) (hdec : Decodes keccak n dec c) :
    decodeShort dec hash (Rlp.writeBytes (hexToCompact k) ++ ref keccak c) =
      .ok (firstNode keccak hash (.short k c)) := by
  have hkey : (hexToCompact k).length < 2 ^ 64 :=
    lt_trans (length_hexToCompact_lt hn h) (by decide)
  rw [decodeShort, Rlp.splitString_writeBytes hkey]
  simp only [compactToHex_hexToCompact h.word.1]
  cases h with
  | @leaf _ _ v hk _ hv =>
    have hval : Rlp.splitString (Rlp.writeBytes v) = .ok (v, []) := by
      have := Rlp.splitString_writeBytes (lt_trans hv.2 (by decide)) ([] : Bytes)
      rwa [append_nil] at this
    rw [if_pos ((hasTerm_iff (.inl hk)).mpr hk), ref_value, hval]
    rfl
  | ext hk hkt hlen hts =>
    have hfits : TrieShape n _ := hts.mono (by omega)
    have href := decodeRef_ref hn (.inr hfits) [] hdec
    rw [append_nil] at href
    rw [hasTerm_of_not_mem hkt, if_neg (by decide), href]
    rfl

theorem getD_map_slots (f : Nibble → Node) {i : Nibble} (hi : i ≠ term) :
    ((finRange 16).map fun j => f j.castSucc).getD i.val .nil = f i := by
  have hlt : i.val < 16 := by
    have : i < Fin.last 16 := Fin.lt_last_iff_ne_last.mpr hi
    exact this
  rw [getD_eq_getElem?_getD, getElem?_map, getElem?_eq_getElem (by simpa)]
  rw [getElem_finRange]
  rfl

theorem decodeFull_enc (hn : n ≤ maxKey) {ts : Nibble → TrieTree} (h : TrieShape n (.full ts))
    (hash : Option Hash) (dec : Bytes → Except DecodeError Node)
    (hdec : ∀ i, Decodes keccak n dec (ts i)) :
    decodeFull dec hash (slots.flatMap fun i => ref keccak (ts i)) =
      .ok (firstNode keccak hash (.full ts)) := by
  have hrefs := decodeRefs_ref hn dec (ref keccak (ts term))
    ((finRange 16).map fun i => ts i.castSucc) 0 (by
      intro t ht
      obtain ⟨i, -, rfl⟩ := mem_map.mp ht
      exact ⟨(h.slot (castSucc_ne_term i)).mono (Nat.sub_le n 1), hdec i.castSucc⟩)
  rw [length_map, length_finRange, map_map, map_map] at hrefs
  have hval : ∃ v, Rlp.splitString (ref keccak (ts term)) = .ok (v, []) ∧
      refNode keccak (ts term) = if v.isEmpty then .nil else .value v := by
    rcases h.valueSlot with hnil | ⟨v, hv, hval⟩
    · refine ⟨[], ?_, by rw [hnil]; rfl⟩
      rw [hnil]
      exact Rlp.splitString_writeBytes (b := []) (by decide) []
    refine ⟨v, ?_, ?_⟩
    · have := Rlp.splitString_writeBytes (lt_trans hv.2 (by decide)) ([] : Bytes)
      rw [append_nil] at this
      rw [hval, ref_value, this]
    · rw [hval, if_neg (by simpa using hv.1)]
      rfl
  obtain ⟨v, hsplit, hslot⟩ := hval
  rw [decodeFull, flatMap_slots]
  simp only [Function.comp_def] at hrefs
  simp only [hrefs, hsplit, firstNode_full]
  congr 2
  funext i
  by_cases hi : i = term
  · rw [if_pos hi, hi, hslot]
  · rw [if_neg hi, getD_map_slots (fun j => refNode keccak (ts j)) hi]

/-- Decoding the encoding of a tree gives its first node. The induction is on the
bound for the size: every embedded node is shorter. -/
theorem decodeNodeF_enc : ∀ (fuel : Nat) {n : Nat} {t : TrieTree} (_ : n ≤ maxKey)
    (_ : TrieShape n t) (hash : Option Hash) (rest : Bytes),
    (enc keccak t).length < fuel →
    decodeNodeF fuel hash (enc keccak t ++ rest) = .ok (firstNode keccak hash t)
  | 0, _, _, _, _, _, _, hlen => absurd hlen (Nat.not_lt_zero _)
  | fuel + 1, n, t, hn, h, hash, rest, hlen => by
    cases t with
    | nil => exact absurd rfl h.ne_nil
    | value v => cases h
    | short k c =>
      have hsize := length_ref_lt_enc_short keccak k c
      have hcount : Rlp.countValues (Rlp.writeBytes (hexToCompact k) ++ ref keccak c) = .ok 2 := by
        have hitems : ∀ e ∈ [Rlp.writeBytes (hexToCompact k), ref keccak c], Rlp.Item e := by
          rw [forall_mem_cons, forall_mem_singleton]
          refine ⟨Rlp.item_writeBytes (lt_trans (length_hexToCompact_lt hn h) (by decide)), ?_⟩
          cases h with
          | leaf _ _ hv => exact item_ref_value (.inr ⟨_, hv, rfl⟩)
          | ext _ _ hm hts => exact item_ref_node (by omega) hts
        simpa using Rlp.countValues_flatten hitems
      have hshort := decodeShort_enc hn h hash (decodeNodeF fuel none)
        (fun hc href rest => decodeNodeF_enc fuel hn hc none rest (by rw [← href]; omega))
      rw [decodeNodeF, if_neg (by simp [enc_short, Rlp.list_ne_nil]), enc_short,
        Rlp.splitList_list (payload_short_lt hn h)]
      simp only [hcount, Except.toOption, Option.getD_some, hshort]
      rfl
    | full ts =>
      have hcount : Rlp.countValues (slots.flatMap fun i => ref keccak (ts i)) = .ok 17 := by
        have hitems : ∀ e ∈ slots.map fun i => ref keccak (ts i), Rlp.Item e := by
          intro e he
          obtain ⟨i, -, rfl⟩ := mem_map.mp he
          by_cases hi : i = term
          · rw [hi]
            exact item_ref_value h.valueSlot
          · exact item_ref hn ((h.slot hi).mono (Nat.sub_le n 1))
        simpa [slots, flatMap_def] using Rlp.countValues_flatten hitems
      have hfull := decodeFull_enc hn h hash (decodeNodeF fuel none)
        (fun i hc href rest => decodeNodeF_enc fuel hn hc none rest (by
          have := length_ref_lt_enc_full keccak ts i
          rw [← href]
          omega))
      rw [decodeNodeF, if_neg (by simp [enc_full, Rlp.list_ne_nil]), enc_full,
        Rlp.splitList_list (payload_full_lt h)]
      simp only [hcount, Except.toOption, Option.getD_some, hfull]
      rfl

theorem decodeNode_enc (hn : n ≤ maxKey) (h : TrieShape n t) (hash : Option Hash) :
    decodeNode hash (enc keccak t) = .ok (firstNode keccak hash t) := by
  have := decodeNodeF_enc ((enc keccak t).length + 1) hn h hash [] (Nat.lt_succ_self _)
  rwa [append_nil] at this

end Encode

end GoEthereum.Trie

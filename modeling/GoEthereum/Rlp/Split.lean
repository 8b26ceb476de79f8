import GoEthereum.Rlp.Integers

/-!
# Two readers of one format

`rlp/raw.go` splits a slice, `rlp/decode.go` reads a stream. The headers, the rules for
canonical sizes and the bounds are implemented in both, and checked in different places.
Splitting a slice all the way down visits an item that covers it exactly when the stream
decodes it, and the two give the same item: both accept the encodings of items and nothing
else.
-/

namespace GoEthereum.Rlp

open List

variable {b content rest : Bytes} {k : Kind} {cs ts x : Nat} {v : Value}

mutual

/-- The first item of a slice, and the bytes after it: a list is split with `SplitList`, its
values are counted with `CountValues` and visited one after the other. -/
def splitItem : Nat → Bytes → Except Err (Value × Bytes)
  | 0, _ => .error .unexpectedEOF
  | fuel + 1, b =>
    match split b with
    | .error e => .error e
    | .ok (.list, _, _) =>
      match splitList b with
      | .error e => .error e
      | .ok (content, rest) =>
        match countValues content with
        | .error e => .error e
        | .ok n =>
          match splitItems fuel n content with
          | .error e => .error e
          | .ok (items, _) => .ok (.list items, rest)
    | .ok (_, content, rest) => .ok (.bytes content, rest)

/-- A number of items, one after the other. -/
def splitItems : Nat → Nat → Bytes → Except Err (List Value × Bytes)
  | _, 0, b => .ok ([], b)
  | 0, _ + 1, _ => .error .unexpectedEOF
  | fuel + 1, n + 1, b =>
    match splitItem fuel b with
    | .error e => .error e
    | .ok (item, rest) =>
      match splitItems fuel n rest with
      | .error e => .error e
      | .ok (items, rest) => .ok (item :: items, rest)

end

/-- The item of a slice and what is left. An item of a list has fewer bytes than the list, and
there are at most as many of them. -/
def splitBytes (b : Bytes) : Except Err (Value × Bytes) := splitItem (2 * b.length + 1) b

/-- The errors of `SplitUint64`. -/
inductive UintErr where
  | raw (e : Err)
  | canonInt       -- rlp: non-canonical integer format
  | uintOverflow   -- rlp: uint overflow
deriving DecidableEq, Repr

/-- `SplitUint64`: the integer and the bytes after it. -/
def splitUint64 (b : Bytes) : Except UintErr (Nat × Bytes) :=
  match splitString b with
  | .error e => .error (.raw e)
  | .ok ([], rest) => .ok (0, rest)
  | .ok ([x], rest) => if x = 0 then .error .canonInt else .ok (x.toNat, rest)
  | .ok (content, rest) =>
    if 8 < content.length then .error .uintOverflow
    else
      match readSize content content.length with
      | .error _ => .error .canonInt
      | .ok x => .ok (x, rest)

/-- `DecodeBytes` into a `uint64`. -/
def decodeBytesUint64 (b : Bytes) : Except OpErr Nat :=
  match (Stream.reset b).Uint64 with
  | (_, .error e) => .error e
  | (s, .ok x) => if 0 < s.r.length then .error (.stream .moreThanOneValue) else .ok x

/-! ## A slice that is split -/

theorem readSize_sound_raw {slen size : Nat} (h : readSize b slen = .ok size) (h8 : slen ≤ 8) :
    56 ≤ size ∧ putint size = b.take slen ∧ (putint size).length = slen := by
  unfold readSize at h
  split at h
  · cases h
  next hlen =>
  dsimp only at h
  split at h
  · cases h
  next hcanon =>
  cases h
  rw [not_or] at hcanon
  have htake : (b.take slen).length = slen := by
    rw [length_take]
    omega
  have hhead : (b.take slen).head? ≠ some 0 := by
    rcases slen with _ | slen
    · simp
    · rw [head?_take, if_neg (by omega)]
      exact hcanon.2
  have hput : putint (beNat (b.take slen)) = b.take slen := putint_beNat (by omega) hhead
  rw [hput, htake]
  exact ⟨by omega, rfl, rfl⟩

/-- A tag is a single byte, or the header of a string or of a list. -/
inductive Tag (b : Bytes) : Kind → Nat → Nat → Prop where
  | byte {x : UInt8} {rest : Bytes} : b = x :: rest → x.toNat < 0x80 → Tag b .byte 0 1
  | string {ts cs : Nat} : b.take ts = puthead 0x80 0xB7 cs →
      (cs = 1 → ∀ c, (b.drop ts).head? = some c → 128 ≤ c.toNat) → Tag b .string ts cs
  | list {ts cs : Nat} : b.take ts = puthead 0xC0 0xF7 cs → Tag b .list ts cs

theorem readTag_sound {t : UInt8} {buf : Bytes} (h : readTag t buf = .ok (k, ts, cs)) :
    Tag (t :: buf) k ts cs := by
  have hlong : ∀ base size, t.toNat - base ≤ 8 → base < t.toNat →
      readSize buf (t.toNat - base) = .ok size → ∀ small,
      (t :: buf).take (t.toNat - base + 1) = puthead small base size ∧ 56 ≤ size := by
    intro base size h8 hbase hsize small
    obtain ⟨h56, htake, hlen⟩ := readSize_sound_raw hsize h8
    have htag : UInt8.ofNat (base + (putint size).length) = t := by
      apply ofNat_eq
      omega
    rw [puthead_of_le h56, htag, take_succ_cons, htake]
    exact ⟨rfl, h56⟩
  unfold readTag at h
  split_ifs at h with h80 hB8 hcanon hC0 hF8
  · cases h
    exact .byte rfl h80
  · cases h
    refine .string ?_ ?_
    · rw [puthead_of_lt (by omega), ofNat_eq (b := t) (by omega)]
      rfl
    · intro hone c hc
      by_contra hlt
      apply hcanon
      refine ⟨hone, ?_⟩
      have hc' : buf.head? = some c := hc
      rw [hc']
      simp only [Option.any_some, decide_eq_true_eq]
      omega
  · split at h
    · cases h
    next hsize =>
    cases h
    obtain ⟨htake, h56⟩ := hlong 0xB7 _ (by omega) (by omega) hsize 0x80
    exact .string htake (fun hone => absurd hone (by omega))
  · cases h
    refine .list ?_
    rw [puthead_of_lt (by omega), ofNat_eq (b := t) (by omega)]
    rfl
  · have ht : t.toNat < 256 := t.toNat_lt
    split at h
    · cases h
    next hsize =>
    cases h
    exact .list (hlong 0xF7 _ (by omega) (by omega) hsize 0xC0).1

theorem readKind_sound_raw (h : readKind b = .ok (k, ts, cs)) :
    Tag b k ts cs ∧ cs ≤ (b.drop ts).length := by
  rcases b with _ | ⟨t, buf⟩
  · simp [readKind] at h
  rw [readKind] at h
  split at h
  · cases h
  next htag =>
  split at h
  · cases h
  next hfit =>
  cases h
  refine ⟨readTag_sound htag, ?_⟩
  rw [length_drop]
  omega

/-- The encoding of a content, by its kind. -/
def encodeKind (k : Kind) (content : Bytes) : Bytes :=
  match k with
  | .list => list content
  | _ => writeBytes content

/-- The bytes that `split` takes off: the encoding of the content. -/
theorem split_sound (h : split b = .ok (k, content, rest)) : b = encodeKind k content ++ rest := by
  unfold split at h
  split at h
  · cases h
  next ts cs hk =>
  cases h
  obtain ⟨htag, hfit⟩ := readKind_sound_raw hk
  have hlen : ((b.drop ts).take cs).length = cs := by
    rw [length_take]
    omega
  have hparts : b.take ts ++ (b.drop ts).take cs ++ b.drop (ts + cs) = b := by
    rw [append_assoc, ← drop_drop, take_append_drop, take_append_drop]
  rcases htag with ⟨hb, hx⟩ | ⟨htake, hlarge⟩ | ⟨htake⟩
  · rename_i x buf
    subst hb
    have hw : writeBytes [x] = [x] := by
      rw [writeBytes, if_pos (by omega)]
    show x :: buf = writeBytes [x] ++ buf
    rw [hw]
    rfl
  · have hw : writeBytes ((b.drop ts).take cs) = b.take ts ++ (b.drop ts).take cs := by
      rw [writeBytes_of_large, hlen, htake]
      intro x hx
      have hone : cs = 1 := by rw [← hlen, hx, length_singleton]
      apply hlarge hone
      rw [hone] at hx
      rw [← take_append_drop 1 (b.drop ts), hx]
      rfl
    rw [encodeKind, hw, hparts]
    simp
  · show b = puthead 0xC0 0xF7 ((b.drop ts).take cs).length ++ (b.drop ts).take cs ++ b.drop (ts + cs)
    rw [hlen, ← htake, hparts]

/-! ## A list that is counted -/

theorem tag_pos (h : Tag b k ts cs) : 0 < ts + cs := by
  have hpos : ∀ s l n, b.take ts = puthead s l n → 0 < ts := by
    intro s l n htake
    apply Nat.pos_of_ne_zero
    intro hzero
    have := puthead_length_pos s l n
    rw [← htake, hzero] at this
    simp at this
  rcases h with ⟨-, -⟩ | ⟨htake, -⟩ | ⟨htake⟩
  · omega
  · have := hpos _ _ _ htake
    omega
  · have := hpos _ _ _ htake
    omega

/-- The item that is split off is the value that `CountValues` skips. -/
theorem splitItem_readKind {fuel : Nat} (h : splitItem fuel b = .ok (v, rest)) :
    ∃ k ts cs, readKind b = .ok (k, ts, cs) ∧ rest = b.drop (ts + cs) := by
  rcases fuel with _ | fuel
  · simp [splitItem] at h
  rw [splitItem] at h
  unfold splitList split at h
  rcases hk : readKind b with e | ⟨k, ts, cs⟩
  · simp [hk] at h
  refine ⟨k, ts, cs, rfl, ?_⟩
  cases k with
  | byte | string =>
    simp only [hk] at h
    cases h
    rfl
  | list =>
    simp only [hk] at h
    split at h
    · cases h
    split at h
    · cases h
    · cases h
      rfl

theorem countLoop_cons {fuel : Nat} (hne : b ≠ []) (hlen : b.length ≤ fuel) {n : Nat}
    (h : countLoop fuel b = .ok n) :
    ∃ k ts cs fuel' m, readKind b = .ok (k, ts, cs) ∧ (b.drop (ts + cs)).length ≤ fuel' ∧
      countLoop fuel' (b.drop (ts + cs)) = .ok m ∧ n = m + 1 := by
  rcases fuel with _ | fuel
  · rw [Nat.le_zero, length_eq_zero_iff] at hlen
    exact absurd hlen hne
  rw [countLoop] at h
  · split at h
    · cases h
    next k ts cs hk =>
    split at h
    · cases h
    next m hrest =>
    cases h
    have hpos := tag_pos (readKind_sound_raw hk).1
    refine ⟨k, ts, cs, fuel, m, hk, ?_, hrest, rfl⟩
    rw [length_drop]
    omega
  · exact hne

theorem splitItems_succ {n fuel : Nat} {items : List Value}
    (h : splitItems (fuel + 1) (n + 1) b = .ok (items, rest)) :
    ∃ item rest' items', splitItem fuel b = .ok (item, rest') ∧
      splitItems fuel n rest' = .ok (items', rest) ∧ items = item :: items' := by
  rw [splitItems] at h
  split at h
  · cases h
  next item rest' hitem =>
  split at h
  · cases h
  next items' _ hrest =>
  cases h
  exact ⟨item, rest', items', hitem, hrest, rfl⟩

/-- Of a list whose values were counted and split nothing is left. -/
theorem splitItems_left : ∀ (n fuel fuel' : Nat) {b left : Bytes} {items : List Value},
    b.length ≤ fuel' → countLoop fuel' b = .ok n → splitItems fuel n b = .ok (items, left) →
    left = []
  | 0, fuel, fuel', b, left, items, hlen, hcount, h => by
    rw [splitItems] at h
    cases h
    by_contra hne
    obtain ⟨k, ts, cs, f, m, -, -, -, hm⟩ := countLoop_cons hne hlen hcount
    omega
  | n + 1, 0, _, _, _, _, _, _, h => by simp [splitItems] at h
  | n + 1, fuel + 1, fuel', b, left, items, hlen, hcount, h => by
    obtain ⟨item, rest, items', hitem, hrest, -⟩ := splitItems_succ h
    obtain ⟨k, ts, cs, hk, hdrop⟩ := splitItem_readKind hitem
    have hne : b ≠ [] := by
      rintro rfl
      simp [readKind] at hk
    obtain ⟨k', ts', cs', f, m, hk', hle, hm, hn⟩ := countLoop_cons hne hlen hcount
    rw [hk] at hk'
    cases hk'
    obtain rfl : m = n := by omega
    rw [← hdrop] at hle hm
    exact splitItems_left m fuel f hle hm hrest

/-! ## The items -/

/-- What is split off is the encoding of the item. -/
theorem splitItem_sound : ∀ (fuel : Nat),
    (∀ {b rest : Bytes} {v : Value}, splitItem fuel b = .ok (v, rest) → b = v.enc ++ rest) ∧
    (∀ {n : Nat} {b rest : Bytes} {items : List Value},
      splitItems fuel n b = .ok (items, rest) → b = Value.encs items ++ rest)
  | 0 => by
    refine ⟨?_, ?_⟩
    · intro b rest v h
      simp [splitItem] at h
    · intro n b rest items h
      rcases n with _ | n
      · rw [splitItems] at h
        cases h
        rw [Value.encs, nil_append]
      · simp [splitItems] at h
  | fuel + 1 => by
    have ih := splitItem_sound fuel
    refine ⟨?_, ?_⟩
    · intro b rest v h
      rw [splitItem] at h
      rcases hsplit : split b with e | ⟨k, content, rest'⟩
      · simp [hsplit] at h
      have hb := split_sound hsplit
      cases k with
      | byte | string =>
        simp only [hsplit] at h
        cases h
        rw [Value.enc]
        exact hb
      | list =>
        have hlist : splitList b = .ok (content, rest') := by
          rw [splitList, hsplit]
        simp only [hsplit, hlist] at h
        split at h
        · cases h
        next n hcount =>
        split at h
        · cases h
        next items left hitems =>
        cases h
        have hleft := splitItems_left n fuel _ le_rfl hcount hitems
        have hcontent := ih.2 hitems
        rw [hleft, append_nil] at hcontent
        rw [Value.enc, ← hcontent]
        exact hb
    · intro n b rest items h
      rcases n with _ | n
      · rw [splitItems] at h
        cases h
        rw [Value.encs, nil_append]
      obtain ⟨item, rest', items', hitem, hrest, rfl⟩ := splitItems_succ h
      rw [Value.encs, append_assoc, ← ih.2 hrest]
      exact ih.1 hitem

theorem encs_eq_flatten : ∀ items : List Value, Value.encs items = (items.map Value.enc).flatten
  | [] => rfl
  | item :: items => by
    rw [Value.encs, encs_eq_flatten items, map_cons, flatten_cons]

theorem length_le_encs {items : List Value} (h : v ∈ items) :
    v.enc.length ≤ (Value.encs items).length := by
  rw [encs_eq_flatten]
  exact (sublist_flatten_of_mem (mem_map_of_mem h)).length_le

theorem item_enc (h : v.enc.length < 2 ^ 64) : Item v.enc := by
  rcases v with b | items
  · rw [Value.enc] at h ⊢
    apply item_writeBytes
    by_contra hlarge
    have := lt_writeBytes_length (b := b) (by omega)
    omega
  · rw [Value.enc] at h ⊢
    apply item_list
    have := lt_list_length (Value.encs items)
    omega

/-- The encoding of an item is split into it. -/
theorem splitItem_complete : ∀ (fuel : Nat),
    (∀ {v : Value} {rest : Bytes}, v.enc.length < 2 ^ 64 → 2 * v.enc.length + 1 ≤ fuel →
      splitItem fuel (v.enc ++ rest) = .ok (v, rest)) ∧
    (∀ {items : List Value} {rest : Bytes}, (Value.encs items).length < 2 ^ 64 →
      2 * (Value.encs items).length + 2 ≤ fuel →
      splitItems fuel items.length (Value.encs items ++ rest) = .ok (items, rest))
  | 0 => ⟨fun _ h => absurd h (by omega), fun _ h => absurd h (by omega)⟩
  | fuel + 1 => by
    have ih := splitItem_complete fuel
    refine ⟨?_, ?_⟩
    · intro v rest hlen hfuel
      rcases v with b | items
      · rw [Value.enc] at hlen ⊢
        have hb : b.length < 2 ^ 64 := by
          by_contra hlarge
          have := lt_writeBytes_length (b := b) (by omega)
          omega
        have hkind : stringKind b ≠ .list := by
          unfold stringKind
          split
          · split <;> simp
          · simp
        rw [splitItem, split_writeBytes hb]
        rcases hs : stringKind b with _ | _ | _
        · rfl
        · rfl
        · exact absurd hs hkind
      · rw [Value.enc] at hlen hfuel ⊢
        have hlt := lt_list_length (Value.encs items)
        have hcount : countValues (Value.encs items) = .ok items.length := by
          rw [encs_eq_flatten, countValues_flatten, length_map]
          intro e he
          obtain ⟨v, hv, rfl⟩ := mem_map.mp he
          have := length_le_encs hv
          exact item_enc (by omega)
        have hitems : splitItems fuel items.length (Value.encs items ++ []) = .ok (items, []) :=
          ih.2 (by omega) (by omega)
        rw [append_nil] at hitems
        rw [splitItem, split_list (by omega), splitList_list (by omega)]
        simp only [hcount, hitems]
    · intro items rest hlen hfuel
      rcases items with _ | ⟨item, items⟩
      · simp [splitItems, Value.encs]
      rw [Value.encs, length_append] at hlen hfuel
      have hpos := length_enc_pos item
      have hitem : splitItem fuel (item.enc ++ (Value.encs items ++ rest)) =
          .ok (item, Value.encs items ++ rest) := ih.1 (by omega) (by omega)
      have hitems : splitItems fuel items.length (Value.encs items ++ rest) = .ok (items, rest) :=
        ih.2 (by omega) (by omega)
      rw [Value.encs, append_assoc, length_cons, splitItems, hitem]
      simp only [hitems]

theorem splitBytes_iff (hb : b.length < 2 ^ 63) : splitBytes b = .ok (v, []) ↔ b = v.enc := by
  constructor
  · intro h
    have := (splitItem_sound _).1 h
    rwa [append_nil] at this
  · intro h
    have hsplit : splitItem (2 * b.length + 1) (v.enc ++ []) = .ok (v, []) :=
      (splitItem_complete _).1 (by rw [← h]; omega) (by rw [← h])
    rw [append_nil, ← h] at hsplit
    exact hsplit

theorem decodeBytes_iff (hb : b.length < 2 ^ 63) : DecodeBytes b = .ok v ↔ b = v.enc := by
  constructor
  · intro h
    exact (decodeBytes_sound hb h).symm
  · rintro rfl
    have := @decodeBytes_append v [] (by rwa [append_nil])
    rwa [append_nil, if_pos rfl] at this

/-! ## Integers of 64 bits -/

theorem splitString_iff (hb : b.length < 2 ^ 63) :
    splitString b = .ok (content, rest) ↔ b = writeBytes content ++ rest := by
  constructor
  · intro h
    unfold splitString at h
    rcases hsplit : split b with e | ⟨k, content', rest'⟩
    · simp [hsplit] at h
    simp only [hsplit] at h
    cases k with
    | byte | string =>
      cases h
      exact split_sound hsplit
    | list => cases h
  · rintro rfl
    apply splitString_writeBytes
    by_contra hlarge
    have := lt_writeBytes_length (b := content) (by omega)
    rw [length_append] at hb
    omega

/-- The size rule of `readSize` is the rule for integers, on strings of two bytes or more. -/
theorem readSize_integer (h2 : 2 ≤ content.length) :
    readSize content content.length = .ok x ↔ content.head? ≠ some 0 ∧ beNat content = x := by
  unfold readSize
  rw [if_neg (lt_irrefl _), take_length]
  simp only
  by_cases hhead : content.head? = some 0
  · rw [if_pos (.inr hhead)]
    simp [hhead]
  · have := le_beNat_of_head h2 hhead
    rw [if_neg (by rw [not_or]; exact ⟨by omega, hhead⟩)]
    simp [hhead]

theorem splitUint64_ok : splitUint64 b = .ok (x, rest) ↔
      ∃ content, splitString b = .ok (content, rest) ∧ Digits (some 8) content x := by
  unfold splitUint64
  rcases splitString b with e | ⟨content, rest'⟩
  · simp
  simp only [Except.ok.injEq, Prod.mk.injEq]
  have digits : (∃ content', (content = content' ∧ rest' = rest) ∧ Digits (some 8) content' x) ↔
      rest' = rest ∧ content.head? ≠ some 0 ∧ content.length ≤ 8 ∧ beNat content = x := by
    constructor
    · rintro ⟨_, ⟨rfl, rfl⟩, hd⟩
      exact ⟨rfl, hd.head, hd.size 8 rfl, hd.value⟩
    · rintro ⟨rfl, hhead, hsize, hval⟩
      refine ⟨content, ⟨rfl, rfl⟩, hhead, ?_, hval⟩
      rintro n ⟨rfl⟩
      exact hsize
  rw [digits]
  match content with
  | [] =>
    simp only [Except.ok.injEq, Prod.mk.injEq, beNat]
    simp [and_comm]
  | [y] =>
    by_cases hy : y = 0
    · simp [hy]
    · simp [hy, beNat_singleton, and_comm]
  | y :: z :: content =>
    simp only
    by_cases hlarge : 8 < (y :: z :: content).length
    · simp only [if_pos hlarge, reduceCtorEq, false_iff]
      rintro ⟨-, -, hle, -⟩
      omega
    simp only [if_neg hlarge]
    have hread : ∀ n, readSize (y :: z :: content) (y :: z :: content).length = .ok n ↔ _ :=
      fun _ => readSize_integer (by simp)
    rcases hsize : readSize (y :: z :: content) (y :: z :: content).length with e | n
    · simp only [reduceCtorEq, false_iff]
      rintro ⟨-, hhead, -, hval⟩
      have := (hread x).mpr ⟨hhead, hval⟩
      rw [hsize] at this
      simp at this
    · obtain ⟨hhead, hval⟩ := (hread n).mp hsize
      simp only [Except.ok.injEq, Prod.mk.injEq]
      constructor
      · rintro ⟨rfl, rfl⟩
        exact ⟨rfl, hhead, by omega, hval⟩
      · rintro ⟨rfl, -, -, hval'⟩
        exact ⟨hval.symm.trans hval', rfl⟩

theorem bytes_all (hb : b.length < 2 ^ 63) :
    (∃ s', (Stream.reset b).Bytes = (s', .ok content) ∧ s'.r = []) ↔ b = writeBytes content := by
  constructor
  · rintro ⟨s', h, hr⟩
    by_cases hne : b = []
    · subst hne
      have hnil : (Stream.reset []).Bytes.2 = .error .eof := rfl
      rw [h] at hnil
      simp at hnil
    · have hinput := (bytes_sound (ready_reset hb hne) h).input
      rw [hr, append_nil] at hinput
      exact hinput
  · intro h
    obtain ⟨s', hs'⟩ := (bytes_reset hb).mpr ⟨[], by rw [append_nil]; exact h⟩
    have hne : b ≠ [] := h ▸ writeBytes_ne_nil content
    have hinput : b = writeBytes content ++ s'.r := (bytes_sound (ready_reset hb hne) hs').input
    refine ⟨s', hs', ?_⟩
    rw [h] at hinput
    simpa using hinput

theorem decodeBytesUint64_ok (hb : b.length < 2 ^ 63) :
    decodeBytesUint64 b = .ok x ↔ ∃ content, b = writeBytes content ∧ Digits (some 8) content x := by
  have hread : decodeBytesUint64 b = .ok x ↔
      ∃ s', (Stream.reset b).uint 64 = (s', .ok x) ∧ s'.r = [] := by
    unfold decodeBytesUint64 Stream.Uint64
    rcases (Stream.reset b).uint 64 with ⟨s, e | y⟩
    · simp
    simp only [length_pos_iff]
    by_cases hr : s.r = []
    · simp [hr]
    · rw [if_pos hr]
      simp only [reduceCtorEq, Prod.mk.injEq, Except.ok.injEq, false_iff, not_exists]
      rintro s' ⟨⟨rfl, -⟩, hr'⟩
      exact hr hr'
  rw [hread]
  constructor
  · rintro ⟨s', hs', hr⟩
    obtain ⟨content, hcontent, hd⟩ := (uint_ok (by norm_num)).mp hs'
    exact ⟨content, (bytes_all hb).mp ⟨s', hcontent, hr⟩, hd⟩
  · rintro ⟨content, hcontent, hd⟩
    obtain ⟨s', hs', hr⟩ := (bytes_all hb).mpr hcontent
    exact ⟨s', (uint_ok (by norm_num)).mpr ⟨content, hs', hd⟩, hr⟩

/-- Splitting a slice visits an item that covers it exactly when the stream decodes the slice,
and to the same item; `SplitUint64` leaves nothing of it exactly when it decodes into a
`uint64`, with the same number. -/
theorem split_agrees_decode (b : Bytes) (hb : b.length < 2 ^ 63) :
    (∀ v, splitBytes b = .ok (v, []) ↔ DecodeBytes b = .ok v) ∧
      ∀ x, splitUint64 b = .ok (x, []) ↔ decodeBytesUint64 b = .ok x := by
  constructor
  · intro v
    rw [splitBytes_iff hb, decodeBytes_iff hb]
  · intro x
    rw [splitUint64_ok, decodeBytesUint64_ok hb]
    simp only [splitString_iff hb, append_nil]

/-- A list of a list and an integer, and a string of two bytes. -/
theorem split_agrees_decode_nested :
    DecodeBytes [0xC3, 0xC1, 0x80, 0x05] = .ok (.list [.list [.bytes []], .bytes [5]]) ∧
      decodeBytesUint64 [0x82, 0x01, 0x00] = .ok 256 := by
  constructor
  · apply ((split_agrees_decode [0xC3, 0xC1, 0x80, 0x05] (by decide)).1 _).mp
    rfl
  · apply ((split_agrees_decode [0x82, 0x01, 0x00] (by decide)).2 256).mp
    decide

end GoEthereum.Rlp

import GoEthereum.Rlp.Encode

/-!
# Splitting encoded RLP values

`rlp/raw.go`: `readKind` finds the extent of the first value of a buffer and
refuses non-canonical sizes; `Split`, `SplitString`, `SplitList` and
`CountValues` are built on it. The second half proves that they undo the
encoder.
-/

namespace GoEthereum.Rlp

open List

variable {b content p rest tl : Bytes} {n : Nat}

inductive Kind where
  | byte
  | string
  | list
deriving DecidableEq, Repr

variable {k : Kind}

/-- The errors of `raw.go`. -/
inductive Err where
  | unexpectedEOF
  | canonSize      -- rlp: non-canonical size information
  | valueTooLarge  -- rlp: value size exceeds available input length
  | expectedString
  | expectedList
deriving DecidableEq, Repr

/-- `readSize`: a big-endian size of `slen` bytes. -/
def readSize (b : Bytes) (slen : Nat) : Except Err Nat :=
  if b.length < slen then .error .unexpectedEOF
  else
    let s := beNat (b.take slen)
    if s < 56 ∨ b.head? = some 0 then .error .canonSize else .ok s

/-- The tag of a value: its kind, the size of the tag and of the content,
before the check against the input length. -/
def readTag (b : UInt8) (buf : Bytes) : Except Err (Kind × Nat × Nat) :=
  if b.toNat < 0x80 then .ok (.byte, 0, 1)
  else if b.toNat < 0xB8 then
    -- strings that should have been single bytes are rejected
    if b.toNat - 0x80 = 1 ∧ buf.head?.any (fun c => c.toNat < 128) then
      .error .canonSize
    else .ok (.string, 1, b.toNat - 0x80)
  else if b.toNat < 0xC0 then
    match readSize buf (b.toNat - 0xB7) with
    | .error e => .error e
    | .ok s => .ok (.string, b.toNat - 0xB7 + 1, s)
  else if b.toNat < 0xF8 then .ok (.list, 1, b.toNat - 0xC0)
  else
    match readSize buf (b.toNat - 0xF7) with
    | .error e => .error e
    | .ok s => .ok (.list, b.toNat - 0xF7 + 1, s)

def readKind : Bytes → Except Err (Kind × Nat × Nat)
  | [] => .error .unexpectedEOF
  | b :: buf =>
    match readTag b buf with
    | .error e => .error e
    | .ok (k, tagsize, contentsize) =>
      if (b :: buf).length - tagsize < contentsize then .error .valueTooLarge
      else .ok (k, tagsize, contentsize)

/-- `Split`: kind and content of the first value, and the bytes after it. -/
def split (b : Bytes) : Except Err (Kind × Bytes × Bytes) :=
  match readKind b with
  | .error e => .error e
  | .ok (k, ts, cs) => .ok (k, (b.drop ts).take cs, b.drop (ts + cs))

/-- `SplitString`. -/
def splitString (b : Bytes) : Except Err (Bytes × Bytes) :=
  match split b with
  | .error e => .error e
  | .ok (.list, _, _) => .error .expectedString
  | .ok (_, content, rest) => .ok (content, rest)

/-- `SplitList`. -/
def splitList (b : Bytes) : Except Err (Bytes × Bytes) :=
  match split b with
  | .error e => .error e
  | .ok (.list, content, rest) => .ok (content, rest)
  | .ok _ => .error .expectedList

/-- The loop of `CountValues`; every value takes at least one byte, so the
length of the input bounds the rounds. -/
def countLoop : Nat → Bytes → Except Err Nat
  | _, [] => .ok 0
  | 0, _ => .ok 0
  | fuel + 1, b =>
    match readKind b with
    | .error e => .error e
    | .ok (_, tagsize, size) =>
      match countLoop fuel (b.drop (tagsize + size)) with
      | .error e => .error e
      | .ok n => .ok (n + 1)

/-- `CountValues`. -/
def countValues (b : Bytes) : Except Err Nat := countLoop b.length b

/-! ## The encoder undone -/

theorem putint_length_le (n : Nat) : (putint n).length ≤ 8 := intBytes_length_le 8 n

/-- A size that has a header of its own. -/
theorem putint_large (h56 : 56 ≤ n) (h : n < 2 ^ 64) :
    0 < (putint n).length ∧ (putint n).head? ≠ some 0 ∧ beNat (putint n) = n := by
  have hlt : n < 256 ^ 8 := by norm_num at h ⊢; exact h
  exact ⟨length_pos_iff.mpr (intBytes_ne_nil hlt (by omega)), intBytes_head 8 n hlt,
    beNat_intBytes 8 n hlt⟩

theorem puthead_of_lt {s l : Nat} (h : n < 56) : puthead s l n = [UInt8.ofNat (s + n)] := by
  rw [puthead, if_pos h]

theorem puthead_of_le {s l : Nat} (h : 56 ≤ n) :
    puthead s l n = UInt8.ofNat (l + (putint n).length) :: putint n := by
  rw [puthead, if_neg (not_lt.mpr h)]

theorem readSize_putint (h56 : 56 ≤ n) (h : n < 2 ^ 64) (rest : Bytes) :
    readSize (putint n ++ rest) (putint n).length = .ok n := by
  obtain ⟨hpos, hhead, hval⟩ := putint_large h56 h
  unfold readSize
  rw [if_neg (by simp), take_left, head?_append_of_ne_nil _ (length_pos_iff.mp hpos)]
  simp only [hval]
  rw [if_neg]
  rintro (h | h)
  · omega
  · exact hhead h

/-- The two header shapes, as `readTag` sees them. -/
theorem readTag_puthead_string (h : n < 2 ^ 64) (content rest : Bytes) (hlen : content.length = n)
    (hsingle : n = 1 → ∀ c, (content ++ rest).head? = some c → 128 ≤ c.toNat) :
    ∃ b tl, puthead 0x80 0xB7 n = b :: tl ∧
      readTag b (tl ++ (content ++ rest)) = .ok (.string, tl.length + 1, n) := by
  by_cases hs : n < 56
  · refine ⟨_, [], puthead_of_lt hs, ?_⟩
    unfold readTag
    simp only [UInt8.toNat_ofNat_of_lt' (show 0x80 + n < 256 by omega)]
    rw [if_neg (by omega), if_pos (by omega), if_neg]
    · simp
    · rintro ⟨h1, hany⟩
      rw [Option.any_eq_true] at hany
      obtain ⟨c, hc, hlt⟩ := hany
      have := hsingle (by omega) c (by simpa using hc)
      simp only [decide_eq_true_eq] at hlt
      omega
  · rw [not_lt] at hs
    have h8 := putint_length_le n
    have hpos := (putint_large hs h).1
    refine ⟨_, putint n, puthead_of_le hs, ?_⟩
    unfold readTag
    simp only [UInt8.toNat_ofNat_of_lt' (show 0xB7 + (putint n).length < 256 by omega)]
    rw [if_neg (by omega), if_neg (by omega), if_pos (by omega), Nat.add_sub_cancel_left,
      readSize_putint hs h]

theorem readTag_puthead_list (h : n < 2 ^ 64) (rest : Bytes) :
    ∃ b tl, puthead 0xC0 0xF7 n = b :: tl ∧
      readTag b (tl ++ rest) = .ok (.list, tl.length + 1, n) := by
  by_cases hs : n < 56
  · refine ⟨_, [], puthead_of_lt hs, ?_⟩
    unfold readTag
    simp only [UInt8.toNat_ofNat_of_lt' (show 0xC0 + n < 256 by omega)]
    rw [if_neg (by omega), if_neg (by omega), if_neg (by omega), if_pos (by omega)]
    simp
  · rw [not_lt] at hs
    have h8 := putint_length_le n
    have hpos := (putint_large hs h).1
    refine ⟨_, putint n, puthead_of_le hs, ?_⟩
    unfold readTag
    simp only [UInt8.toNat_ofNat_of_lt' (show 0xF7 + (putint n).length < 256 by omega)]
    rw [if_neg (by omega), if_neg (by omega), if_neg (by omega), if_neg (by omega),
      Nat.add_sub_cancel_left, readSize_putint hs h]

/-- A tag that spans `head` in front of `content`: what `readKind` and `split`
make of it. -/
theorem readKind_of_readTag {b : UInt8}
    (h : readTag b (tl ++ (content ++ rest)) = .ok (k, tl.length + 1, content.length)) :
    readKind (b :: tl ++ content ++ rest) = .ok (k, tl.length + 1, content.length) := by
  have happ : b :: tl ++ content ++ rest = b :: (tl ++ (content ++ rest)) := by simp
  rw [happ, readKind, h]
  simp only
  rw [if_neg]
  simp only [length_cons, length_append]
  omega

theorem split_of_readKind {b : UInt8}
    (h : readKind (b :: tl ++ content ++ rest) = .ok (k, tl.length + 1, content.length)) :
    split (b :: tl ++ content ++ rest) = .ok (k, content, rest) := by
  rw [split, h]
  have hd : (b :: tl ++ content ++ rest).drop (tl.length + 1) = content ++ rest := by
    rw [append_assoc, drop_left' (by simp)]
  have hd' : (b :: tl ++ content ++ rest).drop (tl.length + 1 + content.length) = rest := by
    rw [drop_left' (by simp only [length_append, length_cons])]
  simp only [hd, hd', take_left]

/-- The kind `readKind` gives to the encoding of a string. -/
def stringKind : Bytes → Kind
  | [x] => if x.toNat ≤ 0x7F then .byte else .string
  | _ => .string

theorem readKind_writeBytes (h : b.length < 2 ^ 64) (rest : Bytes) :
    ∃ ts, readKind (writeBytes b ++ rest) = .ok (stringKind b, ts, b.length) ∧
      ts + b.length = (writeBytes b).length ∧
      split (writeBytes b ++ rest) = .ok (stringKind b, b, rest) := by
  -- the general case: a header in front of the string
  have general : (∀ x, b = [x] → 0x7F < x.toNat) → stringKind b = .string →
      writeBytes b = puthead 0x80 0xB7 b.length ++ b →
      ∃ ts, readKind (writeBytes b ++ rest) = .ok (stringKind b, ts, b.length) ∧
        ts + b.length = (writeBytes b).length ∧
        split (writeBytes b ++ rest) = .ok (stringKind b, b, rest) := by
    intro hx hk hw
    obtain ⟨t, tl, hp, htag⟩ := readTag_puthead_string h b rest rfl (by
      intro h1 c hc
      obtain ⟨x, rfl⟩ := length_eq_one_iff.mp h1
      simp only [cons_append, head?_cons, Option.some.injEq] at hc
      subst hc
      have := hx x rfl
      omega)
    have hrk := readKind_of_readTag htag
    have hsp := split_of_readKind hrk
    rw [hw, hp, hk]
    refine ⟨tl.length + 1, hrk, ?_, hsp⟩
    simp only [length_append, length_cons]
  match hb : b with
  | [] => exact general (by simp) rfl (by simp [writeBytes])
  | x :: y :: l => exact general (by simp) rfl (by simp [writeBytes])
  | [x] =>
    by_cases hx : x.toNat ≤ 0x7F
    · -- the byte is its own encoding
      have hk : stringKind [x] = .byte := by simp [stringKind, hx]
      have hw : writeBytes [x] = [x] := by simp [writeBytes, hx]
      have hrk : readKind ([x] ++ rest) = .ok (.byte, 0, 1) := by
        simp only [cons_append, nil_append, readKind]
        have htag : readTag x rest = .ok (.byte, 0, 1) := by
          unfold readTag
          rw [if_pos (by omega)]
        rw [htag]
        simp
      rw [hw, hk]
      refine ⟨0, hrk, by simp, ?_⟩
      rw [split, hrk]
      simp
    · exact general (by intro z hz; cases hz; omega)
        (by simp [stringKind, hx]) (by simp [writeBytes, hx])

theorem split_writeBytes (h : b.length < 2 ^ 64) (rest : Bytes) :
    split (writeBytes b ++ rest) = .ok (stringKind b, b, rest) := by
  obtain ⟨_, _, _, h⟩ := readKind_writeBytes h rest
  exact h

theorem splitString_writeBytes (h : b.length < 2 ^ 64) (rest : Bytes) :
    splitString (writeBytes b ++ rest) = .ok (b, rest) := by
  have hk : stringKind b ≠ .list := by
    unfold stringKind
    split
    · split <;> simp
    · simp
  rw [splitString, split_writeBytes h]
  cases hs : stringKind b with
  | list => exact absurd hs hk
  | byte => rfl
  | string => rfl

theorem readKind_list (h : p.length < 2 ^ 64) (rest : Bytes) :
    ∃ ts, readKind (list p ++ rest) = .ok (.list, ts, p.length) ∧ ts + p.length = (list p).length ∧
      split (list p ++ rest) = .ok (.list, p, rest) := by
  obtain ⟨b, tl, hp, htag⟩ := readTag_puthead_list h (p ++ rest)
  have hrk := readKind_of_readTag htag
  have hsp := split_of_readKind hrk
  rw [list, hp]
  refine ⟨tl.length + 1, hrk, ?_, hsp⟩
  simp only [length_append, length_cons]

theorem split_list (h : p.length < 2 ^ 64) (rest : Bytes) :
    split (list p ++ rest) = .ok (.list, p, rest) := by
  obtain ⟨_, _, _, h⟩ := readKind_list h rest
  exact h

theorem splitList_list (h : p.length < 2 ^ 64) (rest : Bytes) :
    splitList (list p ++ rest) = .ok (p, rest) := by
  rw [splitList, split_list h]

/-! ## Counting the values of a payload -/

/-- One encoded value: `readKind` spans exactly `e`, whatever follows. -/
def Item (e : Bytes) : Prop :=
  e ≠ [] ∧ ∀ rest, ∃ k ts cs, readKind (e ++ rest) = .ok (k, ts, cs) ∧ ts + cs = e.length

theorem item_writeBytes (h : b.length < 2 ^ 64) : Item (writeBytes b) := by
  refine ⟨writeBytes_ne_nil b, fun rest => ?_⟩
  obtain ⟨ts, hk, hl, _⟩ := readKind_writeBytes h rest
  exact ⟨_, ts, _, hk, hl⟩

theorem item_list (h : p.length < 2 ^ 64) : Item (list p) := by
  refine ⟨list_ne_nil p, fun rest => ?_⟩
  obtain ⟨ts, hk, hl, _⟩ := readKind_list h rest
  exact ⟨_, ts, _, hk, hl⟩

theorem countLoop_flatten : ∀ (items : List Bytes), (∀ e ∈ items, Item e) →
    ∀ fuel, items.flatten.length ≤ fuel → countLoop fuel items.flatten = .ok items.length
  | [], _, fuel, _ => by cases fuel <;> rfl
  | e :: items, hi, fuel, hf => by
    obtain ⟨hne, hspan⟩ := hi e (by simp)
    obtain ⟨k, ts, cs, hk, hl⟩ := hspan items.flatten
    have hpos : 0 < e.length := length_pos_iff.mpr hne
    simp only [flatten_cons, length_append] at hf
    obtain ⟨x, xs, rfl⟩ := exists_cons_of_ne_nil hne
    cases fuel with
    | zero =>
      simp only [length_cons] at hf
      omega
    | succ fuel =>
      have ih := countLoop_flatten items (fun e he => hi e (by simp [he])) fuel
        (by simp only [length_cons] at hf; omega)
      rw [flatten_cons]
      have hk' : readKind (x :: (xs ++ items.flatten)) = .ok (k, ts, cs) := hk
      have hd : (x :: (xs ++ items.flatten)).drop (ts + cs) = items.flatten := by
        rw [← cons_append]
        exact drop_left' hl.symm
      simp only [cons_append, countLoop, hk', hd, ih, length_cons]

/-- `countValues` counts the values a payload was put together from. -/
theorem countValues_flatten {items : List Bytes} (hi : ∀ e ∈ items, Item e) :
    countValues items.flatten = .ok items.length :=
  countLoop_flatten items hi _ le_rfl

end GoEthereum.Rlp

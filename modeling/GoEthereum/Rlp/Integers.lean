import GoEthereum.Rlp.Operations

/-!
# Integers

Four writers of integers: `writeUint64` and `AppendUint64` choose the number of bytes in a
`switch`, `writeBigInt` goes over the words of the integer and fills a slice from its end,
and `writeUint256` puts four words into an array and cuts the front off. All of them append
the big-endian bytes without leading zeros as a string, and that is what the three readers
take.
-/

namespace GoEthereum.Rlp

open List

variable {i k n : Nat}

/-- The `switch` of `putint`. -/
def putintSwitch (i : Nat) : Bytes :=
  if i < 1 <<< 8 then beBytes 1 i
  else if i < 1 <<< 16 then beBytes 2 i
  else if i < 1 <<< 24 then beBytes 3 i
  else if i < 1 <<< 32 then beBytes 4 i
  else if i < 1 <<< 40 then beBytes 5 i
  else if i < 1 <<< 48 then beBytes 6 i
  else if i < 1 <<< 56 then beBytes 7 i
  else beBytes 8 i

def AppendUint64 (b : Bytes) (i : Nat) : Bytes :=
  if i = 0 then b ++ [0x80]
  else if i < 128 then b ++ [UInt8.ofNat i]
  else if i < 1 <<< 8 then b ++ 0x81 :: beBytes 1 i
  else if i < 1 <<< 16 then b ++ 0x82 :: beBytes 2 i
  else if i < 1 <<< 24 then b ++ 0x83 :: beBytes 3 i
  else if i < 1 <<< 32 then b ++ 0x84 :: beBytes 4 i
  else if i < 1 <<< 40 then b ++ 0x85 :: beBytes 5 i
  else if i < 1 <<< 48 then b ++ 0x86 :: beBytes 6 i
  else if i < 1 <<< 56 then b ++ 0x87 :: beBytes 7 i
  else b ++ 0x88 :: beBytes 8 i

def IntSize (x : Nat) : Nat := if x < 0x80 then 1 else 1 + intsize x

/-- The inner loop of `writeBigInt`: the bytes of a word, from the lowest on, while there
is room in front of `index`. -/
def fillWord : (j : Nat) → (d index : Nat) → (bytesBuf : Bytes) → Nat × Bytes
  | 0, _, index, bytesBuf => (index, bytesBuf)
  | _ + 1, _, 0, bytesBuf => (0, bytesBuf)
  | j + 1, d, index + 1, bytesBuf =>
    fillWord j (d / 256) index (bytesBuf.set index (UInt8.ofNat d))

/-- The loop of `writeBigInt` over the words. -/
def fillWords : (words : List Nat) → (index : Nat) → (bytesBuf : Bytes) → Nat × Bytes
  | [], index, bytesBuf => (index, bytesBuf)
  | d :: words, index, bytesBuf =>
    let (index, bytesBuf) := fillWord 8 d index bytesBuf
    fillWords words index bytesBuf

namespace EncBuffer

def writeUint64 (buf : EncBuffer) (i : Nat) : EncBuffer :=
  if i = 0 then { buf with str := buf.str ++ [0x80] }
  else if i < 128 then { buf with str := buf.str ++ [UInt8.ofNat i] }
  else
    let s := putintSwitch i
    { buf with str := buf.str ++ UInt8.ofNat (0x80 + s.length) :: s }

/-- `writeBigInt`; the words of the integer are its digits to the base `2 ^ 64`. -/
def writeBigInt (buf : EncBuffer) (i : Nat) : EncBuffer :=
  let bitlen := i.size
  if bitlen ≤ 64 then buf.writeUint64 (i % 2 ^ 64)
  else
    let length := (bitlen + 7) / 8
    let (_, bytesBuf) := fillWords (Nat.digits (2 ^ 64) i) length (replicate length 0)
    { buf with str := buf.str ++ puthead 0x80 0xB7 length ++ bytesBuf }

/-- A word of a `uint256.Int`. -/
def word (z k : Nat) : Nat := z / 2 ^ (64 * k) % 2 ^ 64

def writeUint256 (buf : EncBuffer) (z : Nat) : EncBuffer :=
  let bitlen := z.size
  if bitlen ≤ 64 then buf.writeUint64 (word z 0)
  else
    let nBytes := (bitlen + 7) / 8
    let b := 0 :: (beBytes 8 (word z 3) ++ beBytes 8 (word z 2) ++ beBytes 8 (word z 1) ++
      beBytes 8 (word z 0))
    let b := b.set (32 - nBytes) (UInt8.ofNat (0x80 + nBytes))
    { buf with str := buf.str ++ b.drop (32 - nBytes) }

end EncBuffer

/-! ## The number of bytes -/

theorem intBytes_eq_beBytes : ∀ (k fuel n : Nat), 256 ^ k ≤ n → n < 256 ^ (k + 1) → k < fuel →
    intBytes fuel n = beBytes (k + 1) n
  | _, 0, _, _, _, hf => absurd hf (Nat.not_lt_zero _)
  | 0, fuel + 1, n, hle, hlt, _ => by
    have hzero : n / 256 = 0 := by omega
    rw [intBytes, if_neg (by omega), beBytes_succ, hzero]
    cases fuel <;> rfl
  | k + 1, fuel + 1, n, hle, hlt, hf => by
    have hdiv : 256 ^ k ≤ n / 256 := by
      rw [Nat.le_div_iff_mul_le (by norm_num), ← Nat.pow_succ]
      exact hle
    have hdiv' : n / 256 < 256 ^ (k + 1) := by
      apply Nat.div_lt_of_lt_mul
      rw [← Nat.pow_succ']
      exact hlt
    have hpos : 0 < 256 ^ (k + 1) := by positivity
    rw [intBytes, if_neg (by omega), beBytes_succ,
      intBytes_eq_beBytes k fuel (n / 256) hdiv hdiv' (by omega)]

/-- The bytes of an integer, from its number of bytes. -/
theorem intBytes_self (hle : 256 ^ k ≤ n) (hlt : n < 256 ^ (k + 1)) :
    intBytes n n = beBytes (k + 1) n := by
  apply intBytes_eq_beBytes k n n hle hlt
  exact lt_of_lt_of_le (Nat.lt_pow_self (by norm_num)) hle

theorem writeInt_zero : writeInt 0 = [0x80] := by decide

theorem writeInt_of_lt (hpos : 0 < n) (h : n < 128) : writeInt n = [UInt8.ofNat n] := by
  have hb : (UInt8.ofNat n).toNat = n := by
    rw [UInt8.toNat_ofNat']
    omega
  rw [writeInt, intBytes_self (k := 0) (by omega) (by omega)]
  show writeBytes [UInt8.ofNat (n >>> (8 * 0))] = _
  rw [Nat.mul_zero, Nat.shiftRight_zero, writeBytes, if_pos (by omega)]

/-- From 128 on there is a header. -/
theorem writeInt_of_le (h128 : 128 ≤ n) (hle : 256 ^ k ≤ n) (hlt : n < 256 ^ (k + 1)) :
    writeInt n = puthead 0x80 0xB7 (k + 1) ++ beBytes (k + 1) n := by
  have hlarge : ∀ x, beBytes (k + 1) n = [x] → 128 ≤ x.toNat := by
    intro x hx
    have hk : k = 0 := by
      have := congrArg length hx
      rw [beBytes_length, length_singleton] at this
      omega
    subst hk
    have hval := congrArg beNat hx
    rw [beNat_beBytes, beNat_singleton, Nat.mod_eq_of_lt hlt] at hval
    omega
  rw [writeInt, intBytes_self hle hlt, writeBytes_of_large hlarge, beBytes_length]

theorem exists_width (hpos : 0 < n) : ∃ k, 256 ^ k ≤ n ∧ n < 256 ^ (k + 1) :=
  ⟨Nat.log 256 n, Nat.pow_log_le_self 256 (by omega), Nat.lt_pow_succ_log_self (by norm_num) n⟩

/-- The width of an integer of 64 bits. -/
theorem width_lt (hle : 256 ^ k ≤ n) {m : Nat} (h : n < 256 ^ m) : k < m :=
  (Nat.pow_lt_pow_iff_right (by norm_num)).mp (lt_of_le_of_lt hle h)

/-! ## The two switches -/

theorem putintSwitch_eq (hpos : 0 < i) (h : i < 2 ^ 64) : putintSwitch i = intBytes 8 i := by
  have width : ∀ k, k < 8 → 256 ^ k ≤ i → i < 256 ^ (k + 1) → beBytes (k + 1) i = intBytes 8 i :=
    fun k hk hle hlt => (intBytes_eq_beBytes k 8 i hle hlt hk).symm
  unfold putintSwitch
  simp only [Nat.one_shiftLeft]
  split_ifs
  · exact width 0 (by omega) (by omega) (by omega)
  · exact width 1 (by omega) (by omega) (by omega)
  · exact width 2 (by omega) (by omega) (by omega)
  · exact width 3 (by omega) (by omega) (by omega)
  · exact width 4 (by omega) (by omega) (by omega)
  · exact width 5 (by omega) (by omega) (by omega)
  · exact width 6 (by omega) (by omega) (by omega)
  · exact width 7 (by omega) (by omega) (by omega)

theorem appendUint64_eq (b : Bytes) (h : i < 2 ^ 64) : AppendUint64 b i = b ++ writeInt i := by
  have width : 128 ≤ i → ∀ k, k < 8 → 256 ^ k ≤ i → i < 256 ^ (k + 1) →
      b ++ UInt8.ofNat (0x81 + k) :: beBytes (k + 1) i = b ++ writeInt i := by
    intro h128 k hk hle hlt
    rw [writeInt_of_le h128 hle hlt, puthead_of_lt (by omega), ← Nat.add_assoc, Nat.add_right_comm]
    rfl
  unfold AppendUint64
  simp only [Nat.one_shiftLeft]
  split_ifs with hzero hsmall
  · rw [hzero, writeInt_zero]
  · rw [writeInt_of_lt (by omega) hsmall]
  · exact width (by omega) 0 (by omega) (by omega) (by omega)
  · exact width (by omega) 1 (by omega) (by omega) (by omega)
  · exact width (by omega) 2 (by omega) (by omega) (by omega)
  · exact width (by omega) 3 (by omega) (by omega) (by omega)
  · exact width (by omega) 4 (by omega) (by omega) (by omega)
  · exact width (by omega) 5 (by omega) (by omega) (by omega)
  · exact width (by omega) 6 (by omega) (by omega) (by omega)
  · exact width (by omega) 7 (by omega) (by omega) (by omega)

theorem writeUint64_eq (buf : EncBuffer) (h : i < 2 ^ 64) :
    buf.writeUint64 i = { buf with str := buf.str ++ writeInt i } := by
  unfold EncBuffer.writeUint64
  split_ifs with hzero hsmall
  · rw [hzero, writeInt_zero]
  · rw [writeInt_of_lt (by omega) hsmall]
  · obtain ⟨k, hle, hlt⟩ := exists_width (n := i) (by omega)
    have hk : k < 8 := width_lt hle (by norm_num at h ⊢; exact h)
    have hs : putintSwitch i = beBytes (k + 1) i := by
      rw [putintSwitch_eq (by omega) h, intBytes_eq_beBytes k 8 i hle hlt hk]
    simp only [hs, beBytes_length]
    rw [writeInt_of_le (by omega) hle hlt, puthead_of_lt (by omega)]
    rfl

theorem length_writeInt (h : n < 2 ^ 64) : (writeInt n).length = IntSize n := by
  have h' : n < 256 ^ 8 := by
    norm_num at h ⊢
    exact h
  unfold IntSize
  split
  · rename_i hsmall
    rcases Nat.eq_zero_or_pos n with rfl | hpos
    · rw [writeInt_zero]
      rfl
    · rw [writeInt_of_lt hpos hsmall]
      rfl
  · rename_i hlarge
    obtain ⟨k, hle, hlt⟩ := exists_width (n := n) (by omega)
    have hk : k < 8 := width_lt hle h'
    rw [writeInt_of_le (by omega) hle hlt, puthead_of_lt (by omega), length_append,
      beBytes_length, intsize, intsizeLoop_eq 8 n (by omega) h', intBytes_eq_beBytes k 8 n hle hlt hk,
      beBytes_length]
    rfl

/-! ## The words of a large integer -/

/-- The bytes of a word, in front of what is there. -/
theorem fillWord_eq : ∀ (j d index : Nat) (tail : Bytes),
    fillWord j d index (replicate index 0 ++ tail) =
      (index - j, replicate (index - j) 0 ++ (beBytes (min j index) d ++ tail))
  | 0, d, index, tail => by simp [fillWord, beBytes]
  | j + 1, d, 0, tail => by simp [fillWord, beBytes]
  | j + 1, d, index + 1, tail => by
    have hset : (replicate (index + 1) (0 : UInt8) ++ tail).set index (UInt8.ofNat d) =
        replicate index 0 ++ (UInt8.ofNat d :: tail) := by
      rw [replicate_succ', append_assoc, set_append_right _ _ (by simp)]
      simp
    rw [fillWord, hset, fillWord_eq j (d / 256) index (UInt8.ofNat d :: tail),
      Nat.add_sub_add_right, Nat.add_min_add_right, beBytes_succ, append_assoc]
    rfl

/-- Bytes above a word do not count towards it. -/
theorem beBytes_low {m : Nat} (h : m ≤ k) (w d : Nat) :
    beBytes m (w + 256 ^ k * d) = beBytes m w := by
  obtain ⟨j, rfl⟩ := Nat.exists_eq_add_of_le h
  rw [← beBytes_mod m (w + _), Nat.pow_add, Nat.mul_assoc, Nat.add_mul_mod_self_left, beBytes_mod]

/-- All words. -/
theorem fillWords_eq : ∀ (words : List Nat) (index : Nat) (tail : Bytes),
    (∀ w ∈ words, w < 2 ^ 64) →
    fillWords words index (replicate index 0 ++ tail) =
      (index - 8 * words.length, replicate (index - 8 * words.length) 0 ++
        (beBytes (min (8 * words.length) index) (Nat.ofDigits (2 ^ 64) words) ++ tail))
  | [], index, tail, _ => by simp [fillWords, beBytes]
  | w :: words, index, tail, h => by
    have hw : w < 256 ^ 8 := by
      have := h w (by simp)
      norm_num at this ⊢
      exact this
    have hpow : (2 : Nat) ^ 64 = 256 ^ 8 := by norm_num
    have hrest := fillWords_eq words (index - 8) (beBytes (min 8 index) w ++ tail)
      (fun v hv => h v (mem_cons_of_mem _ hv))
    have hlen : index - 8 - 8 * words.length = index - 8 * (w :: words).length := by
      simp only [length_cons]
      omega
    have hbytes : beBytes (min (8 * words.length) (index - 8)) (Nat.ofDigits (2 ^ 64) words) ++
        beBytes (min 8 index) w =
        beBytes (min (8 * (w :: words).length) index) (Nat.ofDigits (2 ^ 64) (w :: words)) := by
      rw [Nat.ofDigits_cons, hpow]
      simp only [length_cons, Nat.cast_id]
      by_cases h8 : 8 ≤ index
      · -- the word takes the last eight bytes
        have hmin : min (8 * (words.length + 1)) index =
            min (8 * words.length) (index - 8) + 8 := by omega
        rw [hmin, beBytes_add, beBytes_low le_rfl, Nat.add_mul_div_left _ _ (by positivity),
          Nat.div_eq_of_lt hw, Nat.zero_add, Nat.min_eq_left h8]
      · -- no room is left in front of the word
        have hmin : min (8 * (words.length + 1)) index = index := by omega
        have hmin' : min (8 * words.length) (index - 8) = 0 := by omega
        rw [hmin, hmin', Nat.min_eq_right (by omega), beBytes_low (by omega)]
        rfl
    rw [fillWords, fillWord_eq]
    simp only [hrest, hlen]
    rw [← append_assoc (beBytes _ _) (beBytes _ _) tail, hbytes]

/-- The number of bytes from the number of bits. -/
theorem bitlen_width (hle : 256 ^ k ≤ n) (hlt : n < 256 ^ (k + 1)) : (n.size + 7) / 8 = k + 1 := by
  have hpow : ∀ m, 256 ^ m = 2 ^ (8 * m) := fun m => by rw [Nat.pow_mul]
  have hlow : 8 * k < n.size := Nat.lt_size.mpr (hpow k ▸ hle)
  have hhigh : n.size ≤ 8 * (k + 1) := Nat.size_le.mpr (hpow (k + 1) ▸ hlt)
  omega

theorem writeBigInt_eq (buf : EncBuffer) (n : Nat) :
    buf.writeBigInt n = { buf with str := buf.str ++ writeInt n } := by
  unfold EncBuffer.writeBigInt
  simp only
  split
  · rename_i hsize
    have hlt : n < 2 ^ 64 := Nat.size_le.mp hsize
    rw [Nat.mod_eq_of_lt hlt, writeUint64_eq buf hlt]
  next hsize =>
  have hge : 2 ^ 64 ≤ n := Nat.lt_size.mp (by omega)
  obtain ⟨k, hle, hlt⟩ := exists_width (n := n) (by omega)
  have hlen := bitlen_width hle hlt
  have hwords : k + 1 ≤ 8 * (Nat.digits (2 ^ 64) n).length := by
    have hdigits : n < (2 ^ 64) ^ (Nat.digits (2 ^ 64) n).length :=
      Nat.lt_base_pow_length_digits (by norm_num)
    rw [← Nat.pow_mul] at hdigits
    have := Nat.size_le.mpr hdigits
    omega
  have hfill := fillWords_eq (Nat.digits (2 ^ 64) n) (k + 1) []
    (fun w hw => Nat.digits_lt_base (by norm_num) hw)
  rw [Nat.sub_eq_zero_of_le hwords, Nat.min_eq_right hwords, Nat.ofDigits_digits] at hfill
  simp only [append_nil, replicate_zero, nil_append] at hfill
  rw [hlen]
  simp only [hfill]
  rw [writeInt_of_le (by omega) hle hlt, append_assoc]

/-! ## The array of four words -/

/-- The words of an integer of 256 bits, one after the other. -/
theorem words_eq (z : Nat) : beBytes 8 (EncBuffer.word z 3) ++ beBytes 8 (EncBuffer.word z 2) ++
      beBytes 8 (EncBuffer.word z 1) ++ beBytes 8 (EncBuffer.word z 0) = beBytes 32 z := by
  have hword : ∀ k, beBytes 8 (EncBuffer.word z k) = beBytes 8 (z / 256 ^ (8 * k)) := by
    intro k
    have hpow : (2 : Nat) ^ (64 * k) = 256 ^ (8 * k) := by
      rw [Nat.pow_mul, Nat.pow_mul]
    rw [EncBuffer.word, hpow]
    exact beBytes_mod 8 _
  rw [hword, hword, hword, hword, show 32 = 8 + 24 by rfl, beBytes_add, show 24 = 8 + 16 by rfl,
    beBytes_add, show 16 = 8 + 8 by rfl, beBytes_add]
  simp only [append_assoc, Nat.mul_zero, Nat.pow_zero, Nat.div_one]

theorem drop_set {α : Type} {l : List α} (h : i < l.length) (a : α) :
    (l.set i a).drop i = a :: l.drop (i + 1) := by
  rw [drop_eq_getElem_cons (by rw [length_set]; exact h), getElem_set_self,
    drop_set_of_lt (Nat.lt_succ_self i)]

theorem writeUint256_eq (buf : EncBuffer) (h : n < 2 ^ 256) :
    buf.writeUint256 n = { buf with str := buf.str ++ writeInt n } := by
  unfold EncBuffer.writeUint256
  simp only
  split
  · rename_i hsize
    have hlt : n < 2 ^ 64 := Nat.size_le.mp hsize
    have hword : EncBuffer.word n 0 = n := by
      rw [EncBuffer.word, Nat.mul_zero, Nat.pow_zero, Nat.div_one, Nat.mod_eq_of_lt hlt]
    rw [hword, writeUint64_eq buf hlt]
  · rename_i hsize
    have hge : 2 ^ 64 ≤ n := Nat.lt_size.mp (by omega)
    obtain ⟨k, hle, hlt⟩ := exists_width (n := n) (by omega)
    have hk : k < 32 := width_lt hle (by norm_num at h ⊢; exact h)
    have hcut : (beBytes 32 n).drop (32 - (k + 1)) = beBytes (k + 1) n := by
      have h32 : beBytes 32 n = beBytes (32 - (k + 1)) (n / 256 ^ (k + 1)) ++ beBytes (k + 1) n := by
        rw [← beBytes_add, Nat.sub_add_cancel (by omega)]
      rw [h32, drop_left' (beBytes_length _ _)]
    have hroom : 32 - (k + 1) < (0 :: beBytes 32 n).length := by
      rw [length_cons, beBytes_length]
      omega
    rw [bitlen_width hle hlt, words_eq, drop_set hroom, drop_succ_cons,
      hcut, writeInt_of_le (by omega) hle hlt, puthead_of_lt (by omega)]
    rfl

/-! ## The readers -/

/-- The content of an integer. -/
theorem digits_intBytes (n : Nat) : (intBytes n n).head? ≠ some 0 ∧ beNat (intBytes n n) = n :=
  have h : n < 256 ^ n := Nat.lt_pow_self (by norm_num)
  ⟨intBytes_head n n h, beNat_intBytes n n h⟩

/-- A content without a leading zero is that of its integer. -/
theorem writeInt_beNat {b : Bytes} (h : b.head? ≠ some 0) : writeInt (beNat b) = writeBytes b := by
  rcases Nat.eq_zero_or_pos (beNat b) with hzero | hpos
  · have hb : b = [] := by
      have := intBytes_beNat b le_rfl h
      rw [hzero] at this
      rw [← this]
      cases b.length <;> rfl
    rw [hzero, hb]
    rfl
  · obtain ⟨k, hle, hlt⟩ := exists_width hpos
    have hk : k < b.length := width_lt hle (beNat_lt b)
    have hb := intBytes_beNat b le_rfl h
    rw [intBytes_eq_beBytes k _ _ hle hlt hk] at hb
    rw [writeInt, intBytes_self hle hlt, hb]

/-- What a reader of integers takes: the encoding of an integer that fits. -/
theorem digits_reset {input : Bytes} (hlen : input.length < 2 ^ 63) {max : Option Nat} {x : Nat} :
    (∃ s' b, (Stream.reset input).Bytes = (s', .ok b) ∧ Digits max b x) ↔
      (∀ m, max = some m → x < 256 ^ m) ∧ ∃ rest, input = writeInt x ++ rest := by
  constructor
  · rintro ⟨s', b, hb, hd⟩
    obtain ⟨rest, hrest⟩ := (bytes_reset hlen).mp ⟨s', hb⟩
    refine ⟨?_, rest, ?_⟩
    · intro m hm
      have hle := Nat.pow_le_pow_right (show 0 < 256 by norm_num) (hd.size m hm)
      have hlt := beNat_lt b
      rw [hd.value] at hlt
      omega
    · rw [hrest, ← hd.value, writeInt_beNat hd.head]
  · rintro ⟨hfit, rest, hrest⟩
    obtain ⟨s', hs'⟩ := (bytes_reset hlen).mpr ⟨rest, hrest⟩
    have hx := digits_intBytes x
    refine ⟨s', intBytes x x, hs', hx.1, ?_, hx.2⟩
    intro m hm
    rcases Nat.eq_zero_or_pos x with rfl | hpos
    · exact Nat.zero_le m
    · obtain ⟨k, hle, hlt⟩ := exists_width hpos
      rw [intBytes_self hle hlt, beBytes_length]
      exact width_lt hle (hfit m hm)

/-- `EncodeToBytes` of a `big.Int`. -/
def encodeBigInt (n : Nat) : Bytes := (EncBuffer.reset.writeBigInt n).makeBytes

theorem encodeBigInt_eq (n : Nat) : encodeBigInt n = writeInt n := by
  rw [encodeBigInt, writeBigInt_eq]
  simp [EncBuffer.makeBytes, EncBuffer.copyTo, EncBuffer.size, EncBuffer.reset]

theorem ok_of_snd {σ α ε : Type} {p : σ × Except ε α} {x : α} :
    p.2 = .ok x ↔ ∃ s, p = (s, .ok x) := by
  rcases p with ⟨s, r⟩
  simp

/-- The writers of integers append the same bytes, as many as `IntSize` says; they are the
big-endian bytes without a leading zero, written as a string. The readers accept just these
bytes, for integers that fit. -/
theorem integer_codecs_agree : (∀ (buf : EncBuffer) (n : Nat), n < 2 ^ 64 →
      buf.writeUint64 n = buf.writeBigInt n ∧ buf.writeUint256 n = buf.writeBigInt n ∧
        AppendUint64 buf.str n = (buf.writeBigInt n).str ∧
        (buf.writeBigInt n).str.length = buf.str.length + IntSize n) ∧
    (∀ (buf : EncBuffer) (n : Nat), n < 2 ^ 256 → buf.writeUint256 n = buf.writeBigInt n) ∧
    (∀ n, ∃ content : Bytes, content.head? ≠ some 0 ∧ beNat content = n ∧
      encodeBigInt n = writeBytes content) ∧
    (∀ input : Bytes, input.length < 2 ^ 63 → ∀ n, (∀ k, 1 ≤ k → k ≤ 8 →
        (((Stream.reset input).uint (8 * k)).2 = .ok n ↔
          n < 2 ^ (8 * k) ∧ ∃ rest, input = encodeBigInt n ++ rest)) ∧
      ((Stream.reset input).decodeBigInt.2 = .ok n ↔ ∃ rest, input = encodeBigInt n ++ rest) ∧
      ((Stream.reset input).ReadUint256.2 = .ok n ↔
        n < 2 ^ 256 ∧ ∃ rest, input = encodeBigInt n ++ rest)) := by
  refine ⟨?_, ?_, ?_, ?_⟩
  · intro buf n h
    have h256 : n < 2 ^ 256 := lt_trans h (by norm_num)
    rw [writeUint64_eq buf h, writeBigInt_eq, writeUint256_eq buf h256, appendUint64_eq _ h]
    refine ⟨rfl, rfl, rfl, ?_⟩
    show (buf.str ++ writeInt n).length = _
    rw [length_append, length_writeInt h]
  · intro buf n h
    rw [writeBigInt_eq, writeUint256_eq buf h]
  · intro n
    obtain ⟨hhead, hval⟩ := digits_intBytes n
    exact ⟨intBytes n n, hhead, hval, encodeBigInt_eq n⟩
  · intro input hlen n
    rw [encodeBigInt_eq]
    refine ⟨?_, ?_, ?_⟩
    · intro k hk _
      have hdiv : 8 * k / 8 = k := by omega
      simp only [ok_of_snd, uint_ok (show 1 ≤ 8 * k / 8 by omega), digits_reset hlen, hdiv,
        Option.some.injEq, forall_eq', Nat.pow_mul]
    · rw [ok_of_snd, Stream.decodeBigInt, exists_congr fun s => readInteger_ok (by simp),
        digits_reset hlen]
      simp
    · rw [ok_of_snd, Stream.ReadUint256, exists_congr fun s => readInteger_ok (by simp),
        digits_reset hlen]
      simp

end GoEthereum.Rlp

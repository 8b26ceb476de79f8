import GoEthereum.Rlp.Canonical

/-!
# The other operations of the stream

`rlp/decode.go` has, next to `Bytes` and `List`, operations for strings of a fixed size, for
raw values and for integers. All of them look at `Kind` first. What the integer readers
accept is stated through `Bytes`: they succeed where it does, on contents without a leading
zero byte and not above the size they take.
-/

namespace GoEthereum.Rlp

open List

/-- The errors of the operations: those of the stream, and their own. -/
inductive OpErr where
  | stream (e : StreamErr)
  | canonInt                    -- rlp: non-canonical integer format
  | uintOverflow                -- rlp: uint overflow
  | uint256Large                -- rlp: value too large for uint256
  | wrongSize (size want : Nat) -- input value has wrong size %d, want %d
  | invalidBool (num : Nat)     -- rlp: invalid boolean value: %d
deriving DecidableEq, Repr

namespace Stream

variable (s : Stream)

/-- `ReadBytes`, into a slice of a given length. -/
def ReadBytes (len : Nat) : Stream × Except OpErr GoEthereum.Bytes :=
  match s.Kind with
  | (s, _, _, some e) => (s, .error (.stream e))
  | (s, .byte, _, none) =>
    if len ≠ 1 then (s, .error (.wrongSize 1 len))
    else ({ s with kind := none }, .ok [s.byteval])
  | (s, .string, size, none) =>
    if len ≠ size then (s, .error (.wrongSize size len))
    else
      match s.readFull len with
      | (s, .error e) => (s, .error (.stream e))
      | (s, .ok b) =>
        if size = 1 ∧ b.head?.any (fun c => c.toNat < 128) then
          (s, .error (.stream .canonSize))
        else (s, .ok b)
  | (s, .list, _, none) => (s, .error (.stream .expectedString))

/-- `Raw`: the header was read and is put in front of the content again. -/
def Raw : Stream × Except OpErr GoEthereum.Bytes :=
  match s.Kind with
  | (s, _, _, some e) => (s, .error (.stream e))
  | (s, .byte, _, none) => ({ s with kind := none }, .ok [s.byteval])
  | (s, .string, size, none) =>
    match s.readFull size with
    | (s, .error e) => (s, .error (.stream e))
    | (s, .ok b) => (s, .ok (puthead 0x80 0xB7 size ++ b))
  | (s, .list, size, none) =>
    match s.readFull size with
    | (s, .error e) => (s, .error (.stream e))
    | (s, .ok b) => (s, .ok (puthead 0xC0 0xF7 size ++ b))

def uint (maxbits : Nat) : Stream × Except OpErr Nat :=
  match s.Kind with
  | (s, _, _, some e) => (s, .error (.stream e))
  | (s, .byte, _, none) =>
    if s.byteval = 0 then (s, .error .canonInt)
    else ({ s with kind := none }, .ok s.byteval.toNat)
  | (s, .string, size, none) =>
    if maxbits / 8 < size then (s, .error .uintOverflow)
    else
      match s.readUint size with
      -- not a size here
      | (s, .error .canonSize) => (s, .error .canonInt)
      | (s, .error e) => (s, .error (.stream e))
      | (s, .ok v) =>
        if 0 < size ∧ v < 128 then (s, .error (.stream .canonSize)) else (s, .ok v)
  | (s, .list, _, none) => (s, .error (.stream .expectedString))

/-- `Uint64`, and the deprecated `Uint`. -/
def Uint64 : Stream × Except OpErr Nat := s.uint 64

def Uint32 : Stream × Except OpErr Nat := s.uint 32

def Uint16 : Stream × Except OpErr Nat := s.uint 16

def Uint8 : Stream × Except OpErr Nat := s.uint 8

def MoreDataInList : Bool := decide (0 < s.stack.head?.getD 0)

def Bool : Stream × Except OpErr Bool :=
  match s.uint 8 with
  | (s, .error e) => (s, .error e)
  | (s, .ok 0) => (s, .ok false)
  | (s, .ok 1) => (s, .ok true)
  | (s, .ok num) => (s, .error (.invalidBool num))

/-- The end of the readers of large integers: no leading zero byte, then `SetBytes`. -/
def setInteger (buffer : GoEthereum.Bytes) : Except OpErr Nat :=
  if buffer.head? = some 0 then .error .canonInt else .ok (beNat buffer)

/-- The readers of large integers, with the longest string they take. -/
def readInteger (max : Option Nat) : Stream × Except OpErr Nat :=
  match s.Kind with
  | (s, _, _, some e) => (s, .error (.stream e))
  | (s, .list, _, none) => (s, .error (.stream .expectedString))
  | (s, .byte, _, none) => ({ s with kind := none }, setInteger [s.byteval])
  | (s, .string, size, none) =>
    if size = 0 then ({ s with kind := none }, setInteger [])
    else if max.any (· < size) then (s, .error .uint256Large)
    else
      match s.readFull size with
      | (s, .error e) => (s, .error (.stream e))
      | (s, .ok buffer) =>
        -- a single byte should have been its own encoding
        if size = 1 ∧ buffer.head?.any (fun c => c.toNat < 128) then
          (s, .error (.stream .canonSize))
        else (s, setInteger buffer)

/-- `decodeBigInt`, and `BigInt`. -/
def decodeBigInt : Stream × Except OpErr Nat := s.readInteger none

/-- `ReadUint256`: strings above the size of `uintbuf` are refused. -/
def ReadUint256 : Stream × Except OpErr Nat := s.readInteger (some 32)

end Stream

/-! ## The integers that are read -/

/-- The content of a string is an integer: no leading zero byte, and at most a number of
bytes. -/
structure Digits (max : Option Nat) (b : Bytes) (x : Nat) : Prop where
  head : b.head? ≠ some 0
  size : ∀ n, max = some n → b.length ≤ n
  value : beNat b = x

theorem setInteger_ok {b : Bytes} {x : Nat} :
    Stream.setInteger b = .ok x ↔ b.head? ≠ some 0 ∧ beNat b = x := by
  unfold Stream.setInteger
  split
  · rename_i h
    simp [h]
  · rename_i h
    simp [h]

/-- An integer of two bytes or more without a leading zero is at least 256. -/
theorem le_beNat_of_head {b : Bytes} (hlen : 2 ≤ b.length) (hhead : b.head? ≠ some 0) :
    256 ≤ beNat b := by
  rcases b with _ | ⟨x, _ | ⟨y, b⟩⟩
  · simp at hlen
  · simp at hlen
  · have hx : 0 < x.toNat := by
      apply Nat.pos_of_ne_zero
      intro h0
      apply hhead
      simp only [head?_cons, Option.some.injEq]
      exact UInt8.toNat_inj.mp h0
    have hval : beNat (x :: y :: b) = x.toNat * 256 ^ (y :: b).length + beNat (y :: b) := by
      rw [← beNat_singleton, ← beNat_append]
      rfl
    have hpow : 256 ^ 1 ≤ 256 ^ (y :: b).length :=
      Nat.pow_le_pow_right (by norm_num) (by simp)
    have hmul : 1 * 256 ^ (y :: b).length ≤ x.toNat * 256 ^ (y :: b).length :=
      Nat.mul_le_mul_right _ hx
    rw [hval]
    omega

/-- The readers of large integers accept what `Bytes` does, if it is an integer. -/
theorem readInteger_ok {s s' : Stream} {max : Option Nat} (hmax : ∀ n, max = some n → 1 ≤ n)
    {x : Nat} : s.readInteger max = (s', .ok x) ↔ ∃ b, s.Bytes = (s', .ok b) ∧ Digits max b x := by
  unfold Stream.readInteger Stream.Bytes
  rcases s.Kind with ⟨s₁, k, size, err⟩
  rcases err with _ | e
  swap
  · simp
  rcases k with _ | _ | _
  · -- a byte that is its own value
    simp only [Prod.mk.injEq, setInteger_ok]
    constructor
    · rintro ⟨rfl, hhead, hval⟩
      exact ⟨[s₁.byteval], ⟨rfl, rfl⟩, hhead, hmax, hval⟩
    · rintro ⟨b, ⟨rfl, hb⟩, hd⟩
      cases hb
      exact ⟨rfl, hd.head, hd.value⟩
  · by_cases hzero : size = 0
    · subst hzero
      simp only [if_true, readFull_zero, Prod.mk.injEq, setInteger_ok]
      constructor
      · rintro ⟨rfl, hhead, hval⟩
        exact ⟨[], rfl, hhead, fun n _ => Nat.zero_le n, hval⟩
      · rintro ⟨b, hb, hd⟩
        cases hb
        exact ⟨rfl, hd.head, hd.value⟩
    simp only [if_neg hzero]
    rcases hread : s₁.readFull size with ⟨s₂, e | b⟩
    · simp only [Prod.mk.injEq, reduceCtorEq, and_false, false_and, exists_false, iff_false]
      split <;> simp
    have hlen := readFull_length hread
    simp only
    by_cases hcanon : size = 1 ∧ b.head?.any (fun c => c.toNat < 128) = true
    · simp only [if_pos hcanon]
      split <;> simp
    simp only [if_neg hcanon, Prod.mk.injEq, Except.ok.injEq]
    by_cases hlarge : max.any (· < size) = true
    · -- longer than the reader takes
      simp only [if_pos hlarge, Prod.mk.injEq, reduceCtorEq, and_false, false_iff, not_exists]
      rintro b' ⟨⟨-, rfl⟩, hd⟩
      obtain ⟨n, hn, hlt⟩ := Option.any_eq_true _ _ |>.mp hlarge
      have := hd.size n hn
      simp only [decide_eq_true_eq] at hlt
      omega
    · simp only [if_neg hlarge, Prod.mk.injEq, setInteger_ok]
      constructor
      · rintro ⟨rfl, hhead, hval⟩
        refine ⟨b, ⟨rfl, rfl⟩, hhead, ?_, hval⟩
        intro n hn
        by_contra hlt
        apply hlarge
        rw [hn]
        simp only [Option.any_some, decide_eq_true_eq]
        omega
      · rintro ⟨b', ⟨rfl, rfl⟩, hd⟩
        exact ⟨rfl, hd.head, hd.value⟩
  · simp

/-- `uint` accepts what `Bytes` does, if it is an integer of the given number of bits. -/
theorem uint_ok {s s' : Stream} {maxbits : Nat} (hbits : 1 ≤ maxbits / 8) {x : Nat} :
    s.uint maxbits = (s', .ok x) ↔
      ∃ b, s.Bytes = (s', .ok b) ∧ Digits (some (maxbits / 8)) b x := by
  unfold Stream.uint Stream.Bytes
  rcases s.Kind with ⟨s₁, k, size, err⟩
  rcases err with _ | e
  swap
  · simp
  rcases k with _ | _ | _
  · simp only
    by_cases hzero : s₁.byteval = 0
    · simp only [if_pos hzero, Prod.mk.injEq, reduceCtorEq, and_false, Except.ok.injEq, false_iff,
        not_exists]
      rintro b ⟨⟨-, rfl⟩, hd⟩
      exact hd.head (by rw [hzero]; rfl)
    simp only [if_neg hzero, Prod.mk.injEq, Except.ok.injEq]
    constructor
    · rintro ⟨rfl, rfl⟩
      refine ⟨[s₁.byteval], ⟨rfl, rfl⟩, ?_, ?_, beNat_singleton _⟩
      · simpa using hzero
      · rintro n ⟨rfl⟩
        exact hbits
    · rintro ⟨b, ⟨rfl, rfl⟩, hd⟩
      exact ⟨rfl, by rw [← hd.value, beNat_singleton]⟩
  · simp only
    by_cases hlarge : maxbits / 8 < size
    · simp only [if_pos hlarge, Prod.mk.injEq, reduceCtorEq, and_false, false_iff, not_exists]
      rcases hread : s₁.readFull size with ⟨s₂, e | b⟩
      · simp
      have hlen := readFull_length hread
      rintro b' ⟨hb, hd⟩
      have hle := hd.size _ rfl
      simp only at hb
      split at hb
      · simp at hb
      · simp only [Prod.mk.injEq, Except.ok.injEq] at hb
        rw [← hb.2] at hle
        omega
    simp only [if_neg hlarge, readUint_eq]
    rcases hread : s₁.readFull size with ⟨s₂, e | b⟩
    · simp only [Prod.mk.injEq, reduceCtorEq, and_false, false_and, exists_false, iff_false]
      split <;> simp_all
    have hlen := readFull_length hread
    simp only
    by_cases hhead : 2 ≤ size ∧ b.head? = some 0
    · -- a leading zero: no other check comes first
      simp only [if_pos hhead, Prod.mk.injEq, reduceCtorEq, and_false, false_iff, not_exists]
      rintro b' ⟨hb, hd⟩
      rw [if_neg (by omega)] at hb
      simp only [Prod.mk.injEq, Except.ok.injEq] at hb
      apply hd.head
      rw [← hb.2, hhead.2]
    simp only [if_neg hhead]
    by_cases hsmall : 0 < size ∧ beNat b < 128
    · -- below 128 without a leading zero: one byte, which `Bytes` refuses as well
      have hone : size = 1 := by
        by_contra hne
        have := le_beNat_of_head (by omega) (fun h => hhead ⟨by omega, h⟩)
        omega
      obtain ⟨y, rfl⟩ := length_eq_one_iff.mp (hlen.trans hone)
      have hy : y.toNat < 128 := by simpa [beNat_singleton] using hsmall.2
      simp [hone, hy, beNat_singleton]
    · have hcanon : ¬ (size = 1 ∧ b.head?.any (fun c => c.toNat < 128) = true) := by
        rintro ⟨hone, hany⟩
        obtain ⟨y, rfl⟩ := length_eq_one_iff.mp (hlen.trans hone)
        apply hsmall
        rw [beNat_singleton]
        simp only [head?_cons, Option.any_some, decide_eq_true_eq] at hany
        exact ⟨by omega, hany⟩
      simp only [if_neg hsmall, if_neg hcanon, Prod.mk.injEq, Except.ok.injEq]
      constructor
      · rintro ⟨rfl, rfl⟩
        refine ⟨b, ⟨rfl, rfl⟩, ?_, ?_, rfl⟩
        · intro hz
          apply hsmall
          rcases b with _ | ⟨y, _ | ⟨z, b⟩⟩
          · simp at hz
          · simp only [head?_cons, Option.some.injEq] at hz
            simp [hz, ← hlen, beNat_singleton]
          · exact absurd ⟨by simp [← hlen], hz⟩ hhead
        · rintro n ⟨rfl⟩
          omega
      · rintro ⟨b', ⟨rfl, rfl⟩, hd⟩
        exact ⟨rfl, hd.value⟩
  · simp

/-! ## Strings that are read -/

theorem bytes_of_kind {s s₁ : Stream} {k : Kind} {size : Nat} {b : UInt8} {head : Bytes}
    (h : s.Kind = (ahead s₁ k size b head, k, size, none)) :
    s.Bytes = (ahead s₁ k size b head).Bytes := by
  rw [Stream.Bytes, Stream.Bytes, h, kind_ahead]

/-- A string that is read was written in front of the rest of the input. -/
theorem bytes_sound {s s' : Stream} (hs : Ready s) {b : Bytes} (h : s.Bytes = (s', .ok b)) :
    Consumed s s' (writeBytes b) := by
  have hread := kind_outcome hs
  generalize hk : s.Kind = out at hread
  cases hread with
  | eol => simp [Stream.Bytes, hk] at h
  | failed => simp [Stream.Bytes, hk] at h
  | @read k size x head rest hhead hr hin =>
    rw [bytes_of_kind hk] at h
    have hout := decodeString_out hs hhead hr hin True
    rw [decodeString, h] at hout
    cases hout with
    | ok hdone => exact hdone

/-- A string in front of the input is read. -/
theorem bytes_complete {s : Stream} (hs : Ready s) {b rest : Bytes}
    (hr : s.r = writeBytes b ++ rest) (hin : Within s (writeBytes b).length) :
    ∃ s', s.Bytes = (s', .ok b) := by
  by_cases hsmall : ∃ x : UInt8, b = [x] ∧ x.toNat < 0x80
  · obtain ⟨x, rfl, hx⟩ := hsmall
    have hw : writeBytes [x] = [x] := by
      rw [writeBytes, if_pos (by omega)]
    rw [hw] at hr hin
    have hk := kind_complete hs (.byte hx) hr hin (fun _ _ => Nat.zero_le _) (Nat.zero_le _)
    rw [bytes_of_kind hk, Stream.Bytes, kind_ahead]
    exact ⟨_, rfl⟩
  · have hlarge : ∀ x, b = [x] → 128 ≤ x.toNat := by
      intro x hx
      by_contra hlt
      exact hsmall ⟨x, hx, by omega⟩
    have hw := writeBytes_of_large hlarge
    rw [hw, length_append] at hin
    rw [hw, append_assoc] at hr
    have hsize : b.length < 2 ^ 64 := by
      have hlen := congrArg length hr
      have hshort := hs.short
      simp only [length_append] at hlen
      omega
    have hk := kind_complete hs (.string hsize) hr hin.split.1
      (fun limit hlimit => le_trans (Nat.le_add_left _ _) (hin.list limit hlimit)) (by simp)
    obtain ⟨s', hdec⟩ := decodeString_complete hs hlarge hr hin
    rw [bytes_of_kind hk]
    unfold decodeString at hdec
    split at hdec
    · simp at hdec
    · rename_i s₁ b' hb
      simp only [Prod.mk.injEq, Except.ok.injEq, Value.bytes.injEq] at hdec
      exact ⟨s₁, by rw [hb, hdec.2]⟩

/-- Over a slice: the strings that are read are those that were written. -/
theorem bytes_reset {input b : Bytes} (hlen : input.length < 2 ^ 63) :
    (∃ s', (Stream.reset input).Bytes = (s', .ok b)) ↔ ∃ rest, input = writeBytes b ++ rest := by
  constructor
  · rintro ⟨s', h⟩
    by_cases hne : input = []
    · subst hne
      have : (Stream.reset []).Bytes.2 = .error .eof := rfl
      rw [h] at this
      simp at this
    · exact ⟨s'.r, (bytes_sound (ready_reset hlen hne) h).input⟩
  · rintro ⟨rest, rfl⟩
    have hne : writeBytes b ++ rest ≠ [] := by
      simp [writeBytes_ne_nil]
    apply bytes_complete (ready_reset hlen hne) rfl
    constructor
    · intro limit h
      simp [Stream.reset] at h
    · simp [Stream.reset]

end GoEthereum.Rlp

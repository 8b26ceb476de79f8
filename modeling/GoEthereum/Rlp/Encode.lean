import GoEthereum.Common

/-!
# RLP encoding

The output of package `rlp`'s `EncoderBuffer`: what `WriteBytes`, `WriteUint64`,
`WriteBigInt` and a `List … ListEnd` pair append to the encoded data. The buffer
keeps list headers apart and splices them in at the end; the bytes produced are
the header of the payload size followed by the payload, which is what is written
here.
-/

namespace GoEthereum.Rlp

open List

/-- The low `fuel` bytes of `n`, most significant first, leading zeros left
out. -/
def intBytes : Nat → Nat → Bytes
  | 0, _ => []
  | fuel + 1, n => if n = 0 then [] else intBytes fuel (n / 256) ++ [UInt8.ofNat n]

/-- `putint`: the big-endian bytes of a `uint64` without leading zeros. -/
def putint (i : Nat) : Bytes := intBytes 8 i

def puthead (smalltag largetag size : Nat) : Bytes :=
  if size < 56 then [UInt8.ofNat (smalltag + size)]
  else UInt8.ofNat (largetag + (putint size).length) :: putint size

/-- `rlp.EmptyString`. -/
def emptyString : Bytes := [0x80]

/-- `WriteBytes`: a single byte below `0x80` stands for itself. -/
def writeBytes (b : Bytes) : Bytes :=
  match b with
  | [x] => if x.toNat ≤ 0x7F then [x] else puthead 0x80 0xB7 1 ++ [x]
  | _ => puthead 0x80 0xB7 b.length ++ b

/-- `WriteBigInt` (and `WriteUint64`, its case below `2 ^ 64`). -/
def writeInt (n : Nat) : Bytes := writeBytes (intBytes n n)

/-- `List`, the payload, `ListEnd`. -/
def list (payload : Bytes) : Bytes := puthead 0xC0 0xF7 payload.length ++ payload

/-! ## Big-endian integers -/

theorem foldl_beNat (b : Bytes) (n : Nat) :
    b.foldl (fun n d => n * 256 + d.toNat) n = n * 256 ^ b.length + beNat b := by
  induction b generalizing n with
  | nil => simp [beNat]
  | cons d b ih =>
    simp only [foldl_cons, length_cons, beNat]
    rw [ih, ih (0 * 256 + d.toNat)]
    ring

theorem beNat_append (a b : Bytes) : beNat (a ++ b) = beNat a * 256 ^ b.length + beNat b := by
  unfold beNat
  rw [foldl_append, foldl_beNat]
  rfl

theorem beNat_singleton (x : UInt8) : beNat [x] = x.toNat := by simp [beNat]

theorem beNat_intBytes : ∀ (fuel n : Nat), n < 256 ^ fuel → beNat (intBytes fuel n) = n
  | 0, n, h => by
    have : n = 0 := by simpa using h
    subst this
    rfl
  | fuel + 1, n, h => by
    rw [intBytes]
    split
    · rename_i hn
      subst hn
      rfl
    have hdiv : n / 256 < 256 ^ fuel := by
      rw [pow_succ] at h
      exact Nat.div_lt_of_lt_mul (by omega)
    rw [beNat_append, beNat_intBytes fuel (n / 256) hdiv, beNat_singleton]
    have hlow : (UInt8.ofNat n).toNat = n % 256 := by simp
    rw [hlow]
    simp only [length_singleton, pow_one]
    omega

theorem intBytes_length_le : ∀ fuel n, (intBytes fuel n).length ≤ fuel
  | 0, _ => by simp [intBytes]
  | fuel + 1, n => by
    rw [intBytes]
    split
    · simp
    · have := intBytes_length_le fuel (n / 256)
      simp only [length_append, length_singleton]
      omega

theorem intBytes_eq_nil {fuel n : Nat} (h : n < 256 ^ fuel)
    (he : intBytes fuel n = []) : n = 0 := by
  have := beNat_intBytes fuel n h
  rw [he] at this
  simpa [beNat] using this.symm

theorem intBytes_ne_nil {fuel n : Nat} (h : n < 256 ^ fuel) (hn : n ≠ 0) :
    intBytes fuel n ≠ [] := fun he => hn (intBytes_eq_nil h he)

/-- No leading zero byte. -/
theorem intBytes_head : ∀ (fuel n : Nat), n < 256 ^ fuel → (intBytes fuel n).head? ≠ some 0
  | 0, n, _ => by simp [intBytes]
  | fuel + 1, n, h => by
    rw [intBytes]
    split
    · simp
    next hn =>
    have hdiv : n / 256 < 256 ^ fuel := by
      rw [pow_succ] at h
      exact Nat.div_lt_of_lt_mul (by omega)
    cases hb : intBytes fuel (n / 256) with
    | nil =>
      -- a single digit: it is the whole number, hence not zero
      have hz := intBytes_eq_nil hdiv hb
      have hlt : n < 256 := by omega
      simp only [nil_append, head?_cons, ne_eq, Option.some.injEq]
      intro h0
      have := congrArg UInt8.toNat h0
      simp at this
      omega
    | cons d ds =>
      have ih := intBytes_head fuel (n / 256) hdiv
      rw [hb] at ih
      simpa using ih

/-! ## Sizes -/

theorem puthead_length_le (s l n : Nat) : (puthead s l n).length ≤ 9 := by
  unfold puthead
  split
  · simp
  · have := intBytes_length_le 8 n
    simp only [length_cons, putint]
    omega

theorem puthead_length_pos (s l n : Nat) : 0 < (puthead s l n).length := by
  unfold puthead
  split <;> simp

theorem writeBytes_of_ne_singleton {b : Bytes} (h : ∀ x, b ≠ [x]) :
    writeBytes b = puthead 0x80 0xB7 b.length ++ b := by
  unfold writeBytes
  split
  · rename_i x
    exact absurd rfl (h x)
  · rfl

theorem writeBytes_length_le (b : Bytes) : (writeBytes b).length ≤ 9 + b.length := by
  unfold writeBytes
  split
  · split
    · simp
    · have := puthead_length_le 0x80 0xB7 1
      simp only [length_append, length_singleton]
      omega
  · have := puthead_length_le 0x80 0xB7 b.length
    simp only [length_append]
    omega

theorem lt_list_length (p : Bytes) : p.length < (list p).length := by
  have := puthead_length_pos 0xC0 0xF7 p.length
  simp only [list, length_append]
  omega

/-- A string of at least two bytes is preceded by a header. -/
theorem lt_writeBytes_length {b : Bytes} (h : 2 ≤ b.length) : b.length < (writeBytes b).length := by
  rw [writeBytes_of_ne_singleton (by rintro x rfl; simp at h)]
  have := puthead_length_pos 0x80 0xB7 b.length
  simp only [length_append]
  omega

theorem writeBytes_ne_nil (b : Bytes) : writeBytes b ≠ [] := by
  unfold writeBytes
  split
  · split
    · simp
    · simp
  have := puthead_length_pos 0x80 0xB7 b.length
  intro h
  rw [append_eq_nil_iff] at h
  rw [h.1] at this
  simp at this

theorem list_ne_nil (p : Bytes) : list p ≠ [] := by
  have := lt_list_length p
  intro h
  rw [h] at this
  simp at this

@[simp] theorem writeBytes_nil : writeBytes [] = emptyString := by decide

end GoEthereum.Rlp

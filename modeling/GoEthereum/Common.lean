import Mathlib

/-!
# Byte strings, hashes and addresses

The values of package `common`: a Go byte slice is a list of bytes, a
`common.Hash` and a `common.Address` are lists that carry their own length.
`BytesToHash` and `BytesToAddress` crop from the left and pad with zeros, as
`SetBytes` does.
-/

namespace GoEthereum

open List

abbrev Bytes : Type := List UInt8

/-- `common.Hash`, `[32]byte`. -/
abbrev Hash : Type := List.Vector UInt8 32

/-- `common.Address`, `[20]byte`. -/
abbrev Address : Type := List.Vector UInt8 20

/-- The unsigned integer a byte string spells, most significant byte first
(`big.Int.SetBytes`). -/
def beNat (b : Bytes) : Nat := b.foldl (fun n d => n * 256 + d.toNat) 0

/-- `SetBytes` of a fixed-size array: too long a slice loses its front, a
short one is aligned to the right. -/
def setBytes (n : Nat) (b : Bytes) : Bytes :=
  replicate (n - b.length) 0 ++ b.drop (b.length - n)

theorem setBytes_length (n : Nat) (b : Bytes) : (setBytes n b).length = n := by
  simp only [setBytes, length_append, length_replicate, length_drop]
  omega

/-- `BytesToHash`. -/
def bytesToHash (b : Bytes) : Hash := ⟨setBytes 32 b, setBytes_length 32 b⟩

theorem bytesToHash_val (h : Hash) : bytesToHash h.1 = h := by
  apply Subtype.ext
  show setBytes 32 h.1 = h.1
  have hlen : h.1.length = 32 := h.2
  rw [setBytes, hlen]
  rfl

/-- `BytesToAddress`. -/
def bytesToAddress (b : Bytes) : Address := ⟨setBytes 20 b, setBytes_length 20 b⟩

/-- The `n` low bytes of a number, most significant first. -/
def beBytes (n x : Nat) : Bytes :=
  (range n).reverse.map fun i => UInt8.ofNat (x >>> (8 * i))

theorem beBytes_length (n x : Nat) : (beBytes n x).length = n := by
  simp [beBytes]

theorem beNat_concat (b : Bytes) (x : UInt8) : beNat (b ++ [x]) = beNat b * 256 + x.toNat := by
  rw [beNat, beNat, foldl_append]
  rfl

theorem beBytes_succ (n x : Nat) : beBytes (n + 1) x = beBytes n (x / 256) ++ [UInt8.ofNat x] := by
  have hshift : ∀ i, x >>> (8 * (i + 1)) = (x / 256) >>> (8 * i) := by
    intro i
    rw [Nat.mul_add, Nat.add_comm, Nat.shiftRight_add, Nat.shiftRight_eq_div_pow x]
  rw [beBytes, beBytes, range_succ_eq_map, reverse_cons, map_append, ← map_reverse, map_map]
  congr 1
  refine map_congr_left fun i _ => ?_
  show UInt8.ofNat (x >>> (8 * (i + 1))) = _
  rw [hshift]

/-- Only the low bytes of the number matter. -/
theorem beBytes_mod (n x : Nat) : beBytes n (x % 256 ^ n) = beBytes n x := by
  induction n generalizing x with
  | zero => rfl
  | succ n ih =>
    have hdiv : x % 256 ^ (n + 1) / 256 = x / 256 % 256 ^ n := by
      rw [Nat.pow_succ, Nat.mod_mul_left_div_self]
    have hbyte : UInt8.ofNat (x % 256 ^ (n + 1)) = UInt8.ofNat x := by
      apply UInt8.toNat_inj.mp
      rw [UInt8.toNat_ofNat', UInt8.toNat_ofNat', Nat.pow_succ, Nat.mul_comm]
      exact Nat.mod_mul_right_mod x 256 (256 ^ n)
    rw [beBytes_succ, beBytes_succ, hdiv, ih, hbyte]

theorem beBytes_add (m n x : Nat) : beBytes (m + n) x = beBytes m (x / 256 ^ n) ++ beBytes n x := by
  induction n generalizing x with
  | zero => simp [beBytes]
  | succ n ih =>
    rw [← Nat.add_assoc, beBytes_succ, ih, beBytes_succ, Nat.div_div_eq_div_mul, Nat.pow_succ',
      append_assoc]

/-- Reading back what was written keeps the low bytes. -/
theorem beNat_beBytes (n x : Nat) : beNat (beBytes n x) = x % 256 ^ n := by
  induction n generalizing x with
  | zero =>
    rw [Nat.pow_zero, Nat.mod_one]
    rfl
  | succ n ih =>
    have hbyte : (UInt8.ofNat x).toNat = x % 256 := UInt8.toNat_ofNat'
    rw [beBytes_succ, beNat_concat, ih, hbyte, Nat.pow_succ', Nat.mod_mul, Nat.add_comm,
      Nat.mul_comm]

/-- Writing what was read gives the bytes back. -/
theorem beBytes_beNat (b : Bytes) : beBytes b.length (beNat b) = b := by
  induction b using reverseRecOn with
  | nil => rfl
  | append_singleton b x ih =>
    have hx : x.toNat < 256 := x.toNat_lt
    have hdiv : (beNat b * 256 + x.toNat) / 256 = beNat b := by omega
    have hbyte : UInt8.ofNat (beNat b * 256 + x.toNat) = x := by
      apply UInt8.toNat_inj.mp
      rw [UInt8.toNat_ofNat']
      omega
    rw [length_append, length_singleton, beNat_concat, beBytes_succ, hdiv, ih, hbyte]

/-- `BigToHash`. -/
def bigToHash (x : Nat) : Hash := ⟨beBytes 32 x, beBytes_length 32 x⟩

/-- `BigToAddress`. -/
def bigToAddress (x : Nat) : Address := ⟨beBytes 20 x, beBytes_length 20 x⟩

/-- `common.Hash{}`. -/
def zeroHash : Hash := ⟨replicate 32 0, by simp⟩

/-- `common.Address{}`. -/
def zeroAddress : Address := ⟨replicate 20 0, by simp⟩

/-! ## Calls that succeed -/

section

variable {ε α β : Type} {x : Except ε α} {y : β}

theorem ok_of_bind {f : α → Except ε β} (h : (x >>= f) = .ok y) :
    ∃ a, x = .ok a ∧ f a = .ok y := by
  cases x with
  | error err => cases h
  | ok a => exact ⟨a, rfl, h⟩

/-- A call that has been run. -/
theorem of_checked {p : α → Prop} [DecidablePred p]
    (h : (match x with | .ok a => decide (p a) | .error _ => false) = true) :
    ∃ a, x = .ok a ∧ p a := by
  cases x with
  | error err => cases h
  | ok a => exact ⟨a, rfl, of_decide_eq_true h⟩

theorem ok_of_map {f : α → β} (h : x.map f = .ok y) : ∃ a, x = .ok a ∧ f a = y := by
  cases x with
  | error err => cases h
  | ok a => exact ⟨a, rfl, Except.ok.inj h⟩

end

end GoEthereum

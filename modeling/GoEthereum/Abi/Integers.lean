import GoEthereum.Abi.RoundTrip

/-!
# Integers

Eight of the integer types are integers of Go. The values of all others are numbers of any
size: `Pack` keeps 256 bits of them, and neither `Pack` nor `UnpackValues` compares them with
the range of the type.
-/

namespace GoEthereum.Abi

variable {unsigned : Bool} {size : Nat} {n : Int} {v : Value} {w : Bytes}

def intTy : Bool → Nat → Ty
  | true, size => .uint size
  | false, size => .int size

def readInteger : Bool → Nat → Bytes → Except Err Value
  | true, size, b => readUint size b
  | false, size, b => readInt size b

/-- The number in a word. -/
def number : Bool → Bytes → Int
  | true, w => beNat w
  | false, w => signed w

/-- An integer of Go is in the range of its kind. -/
def Native (v : Value) : Prop := ∀ unsigned size, reflectIntType unsigned size ≠ .ptr →
  v.kind = reflectIntType unsigned size → HasType (intTy unsigned size) v

/-- What `Pack` accepts is a value of the type, and is found again. -/
def PackKeeps (t : Ty) (v : Value) : Prop :=
  ∀ b, Pack [t] [v] = .ok b → HasType t v ∧ UnpackValues [t] b = .ok [v]

/-- What is found in a word is a value of the type, and is packed to the word. -/
def UnpackKeeps (t : Ty) (w : Bytes) : Prop :=
  ∀ v, UnpackValues [t] w = .ok [v] → HasType t v ∧ Pack [t] [v] = .ok w

/-! ## Packing -/

/-- Only an integer has the kind of an integer type. -/
theorem num_of_kind (h : v.kind = reflectIntType unsigned size) :
    ∃ n, v = .num (reflectIntType unsigned size) n := by
  cases v with
  | num k n =>
    obtain rfl : k = reflectIntType unsigned size := h
    exact ⟨n, rfl⟩
  | _ =>
    simp only [Value.kind, reflectIntType] at h
    split at h <;> cases h

theorem Pack_num (n : Int) : Pack [intTy unsigned size]
    [.num (reflectIntType unsigned size) n] = .ok (u256Bytes n) := by
  cases unsigned <;>
    simp [Pack, packArgs, pack, intTy, typeCheck, Ty.kind, Value.kind, packElement, packNum,
      Packed.add, Packed.bytes, isDynamicType, ok_bind, pure, Except.pure]

theorem Pack_kind {b : Bytes} (h : Pack [intTy unsigned size] [v] = .ok b) :
    v.kind = reflectIntType unsigned size := by
  by_contra hne
  cases unsigned <;>
    simp [Pack, packArgs, pack, intTy, typeCheck, Ty.kind, Ne.symm hne, bind, Except.bind] at h

/-! ## Reading -/

theorem UnpackValues_word (hw : w.length = 32) : UnpackValues [intTy unsigned size] w =
    (readInteger unsigned size w).map fun v => [v] := by
  have hfirst : firstWord 0 w = .ok w :=
    firstWord_eq (Nat.zero_le _) (List.append_nil w).symm hw (by rw [hw, maxAlloc]; norm_num)
  have hread : toGoType (intTy unsigned size) 0 w = readInteger unsigned size w := by
    cases unsigned with
    | false =>
      rw [intTy, toGoType, hfirst]
      rfl
    | true =>
      rw [intTy, toGoType, hfirst]
      rfl
  rw [UnpackValues, unpackFields, show int64 ((0 + 0) * 32) = 0 from rfl, hread]
  cases readInteger unsigned size w <;> rfl

/-- What is read is the number of the word. Only an integer of Go is compared with its range. -/
theorem readInteger_ok_iff : readInteger unsigned size w = .ok v ↔
    v = .num (reflectIntType unsigned size) (number unsigned w) ∧
      (reflectIntType unsigned size = .ptr ∨ HasType (intTy unsigned size) v) := by
  cases unsigned with
  | false => exact readInt_ok_iff
  | true => exact readUint_ok_iff

theorem u256Bytes_number (hw : w.length = 32) : u256Bytes (number unsigned w) = w := by
  have hback := beNat_beBytes 32 (beNat w)
  rw [← hw, beBytes_beNat, hw] at hback
  have hlt : beNat w < 2 ^ 256 := by omega
  have hmod : number unsigned w % 2 ^ 256 = beNat w := by
    cases unsigned with
    | true => exact Int.emod_eq_of_lt (Int.natCast_nonneg _) (Int.ofNat_lt.mpr hlt)
    | false =>
      rw [number, signed]
      split <;> omega
  rw [u256Bytes, hmod, Int.toNat_natCast, ← hw, beBytes_beNat]

theorem readInteger_u256Bytes (hsize : 0 < size ∧ size ≤ 256)
    (h : HasType (intTy unsigned size) (.num (reflectIntType unsigned size) n)) :
    readInteger unsigned size (u256Bytes n) = .ok (.num (reflectIntType unsigned size) n) := by
  cases unsigned with
  | true =>
    obtain ⟨m, heq, hlo, hhi⟩ := h
    cases heq
    exact readUint_eq hsize.2 hlo hhi
  | false =>
    obtain ⟨m, heq, hlo, hhi⟩ := h
    cases heq
    exact readInt_eq hsize.1 hsize.2 hlo hhi

/-- Integers come back as they were but where the values of the type are numbers of any size:
there the number that is packed, and the one in the word, must be in its range. -/
theorem integers_unchanged_iff (unsigned : Bool) (size : Nat) (hsize : 0 < size ∧ size ≤ 256)
    (v : Value) (hv : Native v) (w : Bytes) (hw : w.length = 32) :
    PackKeeps (intTy unsigned size) v ∧ UnpackKeeps (intTy unsigned size) w ↔
      (reflectIntType unsigned size = .ptr → (v.kind = .ptr → HasType (intTy unsigned size) v) ∧
        HasType (intTy unsigned size) (.num .ptr (number unsigned w))) := by
  have hunpack : ∀ {v}, UnpackValues [intTy unsigned size] w = .ok [v] ↔
      readInteger unsigned size w = .ok v := by
    intro v
    rw [UnpackValues_word hw]
    cases readInteger unsigned size w <;> simp [Except.map]
  constructor
  · rintro ⟨hpack, hread⟩ hptr
    constructor
    · intro hkind
      obtain ⟨n, rfl⟩ := num_of_kind (hkind.trans hptr.symm)
      exact (hpack _ (Pack_num n)).1
    · refine (hread _ (hunpack.mpr (readInteger_ok_iff.mpr ⟨?_, .inl hptr⟩))).1
      rw [hptr]
  · intro hrange
    constructor
    · intro b hb
      have hkind := Pack_kind hb
      obtain ⟨n, rfl⟩ := num_of_kind hkind
      have hty : HasType (intTy unsigned size) (.num (reflectIntType unsigned size) n) := by
        by_cases hptr : reflectIntType unsigned size = .ptr
        · exact (hrange hptr).1 hptr
        · exact hv unsigned size hptr hkind
      rw [Pack_num] at hb
      cases hb
      rw [UnpackValues_word (u256Bytes_length n), readInteger_u256Bytes hsize hty]
      exact ⟨hty, rfl⟩
    · intro v hv
      obtain ⟨rfl, hty⟩ := readInteger_ok_iff.mp (hunpack.mp hv)
      rw [Pack_num, u256Bytes_number hw]
      refine ⟨hty.elim (fun hptr => ?_) id, rfl⟩
      rw [hptr]
      exact (hrange hptr).2

theorem integers_unchanged_small : PackKeeps (intTy true 24) (.num .ptr 5) ∧
    UnpackKeeps (intTy true 24) (List.replicate 32 0) := by
  have hnative : Native (.num .ptr 5) := fun _ _ hne hkind => absurd hkind.symm hne
  refine (integers_unchanged_iff true 24 (by decide) _ hnative _ rfl).mpr fun _ => ⟨fun _ => ?_, ?_⟩
  · exact ⟨5, rfl, by decide, by decide⟩
  · exact ⟨0, rfl, by decide, by decide⟩

/-- A number that is too large for `uint24` is packed. -/
theorem integers_changed : ¬ PackKeeps (intTy true 24) (.num .ptr (2 ^ 24)) := by
  intro hkeeps
  obtain ⟨n, heq, -, hlt⟩ := (hkeeps _ (Pack_num (2 ^ 24))).1
  cases heq
  exact absurd hlt (by decide)

end GoEthereum.Abi

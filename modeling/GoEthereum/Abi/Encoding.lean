import GoEthereum.Abi.Unpack
import GoEthereum.Lib.HeadTail

/-!
# The encoding of the ABI

What the contract ABI says of an encoding, apart from how the code computes
it: `HasType` is the typing of Go values, `typeSize` the width of a head and
`encode` the encoding, a head and tail layout at every slice, array and tuple.

`pack_eq` shows that `pack` writes this encoding for every value of its type
whose tuples are `Clean`: no two components of one tuple have the same camel
case name. `clean_of_pack` shows that nothing else is packed.
-/

namespace GoEthereum.Abi

open HeadTail

/-! ## Values of a type -/

mutual
/-- A Go value of the type `GetType` builds, integers in range. -/
def HasType : Ty → Value → Prop
  | .int size, v => ∃ n, v = .num (reflectIntType false size) n ∧
      -2 ^ (size - 1) ≤ n ∧ n < 2 ^ (size - 1)
  | .uint size, v => ∃ n, v = .num (reflectIntType true size) n ∧ 0 ≤ n ∧ n < 2 ^ size
  | .bool, v => ∃ b, v = .bool b
  | .string, v => ∃ s, v = .string s
  | .bytes, v => ∃ b, v = .bytes b
  | .address, v => ∃ b : Bytes, v = .fixed b ∧ b.length = 20
  | .fixedBytes n, v => ∃ b : Bytes, v = .fixed b ∧ b.length = n
  | .function, v => ∃ b : Bytes, v = .fixed b ∧ b.length = 24
  | .slice elem, v => ∃ vs, v = .slice elem.kind vs ∧ ∀ x ∈ vs, HasType elem x
  | .array n elem, v => ∃ vs, v = .array elem.kind vs ∧ vs.length = n ∧ ∀ x ∈ vs, HasType elem x
  | .tuple rawNames elems, v => ∃ vs, v = .struct (fieldNames rawNames) vs ∧ HaveTypes elems vs

def HaveTypes : List Ty → List Value → Prop
  | [], [] => True
  | t :: ts, v :: vs => HasType t v ∧ HaveTypes ts vs
  | _, _ => False
end

def Value.fields : Value → List Value
  | .struct _ vs => vs
  | _ => []

mutual
/-- No tuple inside the value has two components of one camel case name. -/
def Clean : Ty → Value → Prop
  | .slice elem, v => ∀ x ∈ v.elems, Clean elem x
  | .array _ elem, v => ∀ x ∈ v.elems, Clean elem x
  | .tuple rawNames elems, v => (rawNames.map toCamelCase).Nodup ∧ CleanAll elems v.fields
  | _, _ => True

def CleanAll : List Ty → List Value → Prop
  | t :: ts, v :: vs => Clean t v ∧ CleanAll ts vs
  | _, _ => True
end

/-! ## Sizes -/

mutual
/-- The width of a value in the head, without any wrapping. -/
def typeSize : Ty → Nat
  | .array n elem => if isDynamicType elem then 32 else n * typeSize elem
  | .tuple _ elems => if anyDynamic elems then 32 else sumSizes elems
  | _ => 32

def sumSizes : List Ty → Nat
  | [] => 0
  | t :: ts => typeSize t + sumSizes ts
end

mutual
theorem typeSize_dvd : ∀ t : Ty, 32 ∣ typeSize t
  | .array n elem => by
    rw [typeSize]
    split
    · exact Nat.dvd_refl 32
    · exact Dvd.dvd.mul_left (typeSize_dvd elem) n
  | .tuple _ elems => by
    rw [typeSize]
    split
    · exact Nat.dvd_refl 32
    · exact sumSizes_dvd elems
  | .int _ | .uint _ | .bool | .string | .slice _ | .address | .fixedBytes _ | .bytes
  | .function => Nat.dvd_refl 32

theorem sumSizes_dvd : ∀ ts : List Ty, 32 ∣ sumSizes ts
  | [] => Nat.dvd_zero 32
  | t :: ts => by
    rw [sumSizes]
    exact Nat.dvd_add (typeSize_dvd t) (sumSizes_dvd ts)
end

mutual
theorem typeSize_pos : ∀ {t : Ty}, t.WellFormed → 32 ≤ typeSize t
  | .array n elem, h => by
    rw [typeSize]
    rw [Ty.WellFormed] at h
    split
    · exact Nat.le_refl 32
    · have helem := typeSize_pos h.2.2
      calc 32 ≤ 1 * typeSize elem := by omega
        _ ≤ n * typeSize elem := Nat.mul_le_mul_right _ h.1
  | .tuple _ elems, h => by
    rw [typeSize]
    rw [Ty.WellFormed] at h
    split
    · exact Nat.le_refl 32
    · exact sumSizes_pos h.1 h.2.2.2.2
  | .int _, _ | .uint _, _ | .bool, _ | .string, _ | .slice _, _ | .address, _ | .fixedBytes _, _
  | .bytes, _ | .function, _ => Nat.le_refl 32

theorem sumSizes_pos : ∀ {ts : List Ty}, ts ≠ [] → AllWellFormed ts → 32 ≤ sumSizes ts
  | [], h, _ => absurd rfl h
  | t :: ts, _, h => by
    rw [AllWellFormed] at h
    rw [sumSizes]
    have ht := typeSize_pos h.1
    omega
end

/-- A static type that does not nest is one word wide. -/
theorem typeSize_of_not_nests {t : Ty} (h : t.nests = false) : typeSize t = 32 := by
  cases t <;> first | rfl | cases h

mutual
/-- Where the true size is an `int`, `getTypeSize` computes it. -/
theorem getTypeSize_eq : ∀ {t : Ty}, t.WellFormed → typeSize t < 2 ^ 63 → getTypeSize t = typeSize t
  | .array n elem, h, hlt => by
    rw [typeSize] at hlt ⊢
    rw [Ty.WellFormed] at h
    rw [getTypeSize]
    by_cases hdyn : isDynamicType elem = true
    · rw [if_pos hdyn, if_pos hdyn]
      rfl
    rw [if_neg hdyn] at hlt
    rw [if_neg hdyn, if_neg hdyn]
    have helem : typeSize elem ≤ n * typeSize elem := Nat.le_mul_of_pos_left _ h.1
    by_cases hnest : elem.nests = true
    · rw [if_pos hnest, getTypeSize_eq h.2.2 (by omega),
        int64_of_lt (by positivity) (by exact_mod_cast hlt)]
      push_cast
      rfl
    · rw [typeSize_of_not_nests (by simpa using hnest)] at hlt ⊢
      rw [if_neg hnest, int64_of_lt (by positivity) (by exact_mod_cast hlt)]
      push_cast
      rfl
  | .tuple _ elems, h, hlt => by
    rw [typeSize] at hlt ⊢
    rw [Ty.WellFormed] at h
    rw [getTypeSize]
    by_cases hdyn : anyDynamic elems = true
    · rw [if_pos hdyn, if_pos hdyn]
      rfl
    · rw [if_neg hdyn] at hlt
      rw [if_neg hdyn, if_neg hdyn]
      exact totalSize_eq h.2.2.2.2 hlt
  | .int _, _, _ | .uint _, _, _ | .bool, _, _ | .string, _, _ | .slice _, _, _ | .address, _, _
  | .fixedBytes _, _, _ | .bytes, _, _ | .function, _, _ => rfl

theorem totalSize_eq : ∀ {ts : List Ty}, AllWellFormed ts → sumSizes ts < 2 ^ 63 →
    totalSize ts = sumSizes ts
  | [], _, _ => rfl
  | t :: ts, h, hlt => by
    rw [AllWellFormed] at h
    rw [sumSizes] at hlt ⊢
    rw [totalSize, getTypeSize_eq h.1 (by omega), totalSize_eq h.2.2 (by omega),
      int64_of_lt (by positivity) (by exact_mod_cast hlt)]
    push_cast
    rfl
end

/-! ## The encoding -/

/-- A pointer of a layout. -/
def word (n : Nat) : Bytes := u256Bytes n

theorem word_length (n : Nat) : (word n).length = 32 := beBytes_length _ _

theorem u256Bytes_length (n : Int) : (u256Bytes n).length = 32 := beBytes_length _ _

/-- The encoding of a value that is neither a slice nor an array nor a
tuple. -/
def encodeElement (t : Ty) (v : Value) : Bytes :=
  match t, v with
  | .string, .string s => packBytesSlice s
  | .bytes, .bytes b => packBytesSlice b
  | .bool, .bool b => u256Bytes (if b then 1 else 0)
  | .address, .fixed b => leftPadBytes b 32
  | _, .fixed b => rightPadBytes b 32
  | _, .num _ n => u256Bytes n
  | _, _ => []

mutual
/-- The encoding of a value. -/
def encode : Ty → Value → Bytes
  | .slice elem, v => word v.elems.length ++
      layout 32 word (v.elems.map fun x => ⟨isDynamicType elem, encode elem x⟩)
  | .array _ elem, v =>
    layout 32 word (v.elems.map fun x => ⟨isDynamicType elem, encode elem x⟩)
  | .tuple _ elems, v => layout 32 word (encodeFields elems v.fields)
  | t, v => encodeElement t v

/-- The parts of a tuple, or of a list of arguments. -/
def encodeFields : List Ty → List Value → List (Piece UInt8)
  | t :: ts, v :: vs => ⟨isDynamicType t, encode t v⟩ :: encodeFields ts vs
  | _, _ => []
end

/-- The encoding of a list of arguments. -/
def encodeArgs (ts : List Ty) (vs : List Value) : Bytes := layout 32 word (encodeFields ts vs)

/-- One value as a part of a layout. -/
def part (t : Ty) (v : Value) : Piece UInt8 := ⟨isDynamicType t, encode t v⟩

theorem typeSize_dynamic {t : Ty} (h : isDynamicType t = true) : typeSize t = 32 := by
  cases t with
  | array n elem =>
    rw [isDynamicType] at h
    rw [typeSize, if_pos h]
  | tuple rawNames elems =>
    rw [isDynamicType] at h
    rw [typeSize, if_pos h]
  | int _ | uint _ | bool | string | slice _ | address | fixedBytes _ | bytes | function => rfl

theorem encodeFields_inline : ∀ {ts : List Ty} {vs : List Value}, anyDynamic ts = false →
    ∀ p ∈ encodeFields ts vs, p.pointed = false
  | [], _, _, p, hp => by simp [encodeFields] at hp
  | t :: ts, [], _, p, hp => by simp [encodeFields] at hp
  | t :: ts, v :: vs, h, p, hp => by
    rw [anyDynamic, Bool.or_eq_false_iff] at h
    rw [encodeFields, List.mem_cons] at hp
    rcases hp with rfl | hp
    · exact h.1
    · exact encodeFields_inline h.2 p hp

mutual
/-- A static value fills exactly its place in the head. -/
theorem encode_length : ∀ {t : Ty} {v : Value}, t.WellFormed → HasType t v →
    isDynamicType t = false → (encode t v).length = typeSize t
  | .int _, _, _, h, _ => by
    rw [HasType] at h
    obtain ⟨n, rfl, _⟩ := h
    exact u256Bytes_length n
  | .uint _, _, _, h, _ => by
    rw [HasType] at h
    obtain ⟨n, rfl, _⟩ := h
    exact u256Bytes_length n
  | .bool, _, _, h, _ => by
    rw [HasType] at h
    obtain ⟨b, rfl⟩ := h
    exact u256Bytes_length _
  | .address, _, _, h, _ => by
    rw [HasType] at h
    obtain ⟨b, rfl, hb⟩ := h
    simp [encode, encodeElement, leftPadBytes, typeSize, hb]
  | .fixedBytes n, _, hwf, h, _ => by
    rw [HasType] at h
    rw [Ty.WellFormed] at hwf
    obtain ⟨b, rfl, hb⟩ := h
    simp [encode, encodeElement, rightPadBytes, typeSize, hb]
    omega
  | .function, _, _, h, _ => by
    rw [HasType] at h
    obtain ⟨b, rfl, hb⟩ := h
    simp [encode, encodeElement, rightPadBytes, typeSize, hb]
  | .array n elem, _, hwf, h, hstatic => by
    rw [HasType] at h
    rw [Ty.WellFormed] at hwf
    rw [isDynamicType] at hstatic
    obtain ⟨vs, rfl, rfl, hvs⟩ := h
    have hinline : ∀ p ∈ vs.map (part elem), p.pointed = false := by
      intro p hp
      obtain ⟨x, _, rfl⟩ := List.mem_map.mp hp
      exact hstatic
    have hwidth : ∀ p ∈ vs.map (part elem), p.width 32 = typeSize elem := by
      intro p hp
      obtain ⟨x, hx, rfl⟩ := List.mem_map.mp hp
      exact part_width hwf.2.2 (hvs x hx)
    rw [typeSize, if_neg (by simp [hstatic])]
    show (layout 32 word (vs.map (part elem))).length = _
    rw [layout_length word_length, tails_inline hinline, headWidth_const hwidth]
    simp
  | .tuple _ elems, _, hwf, h, hstatic => by
    rw [HasType] at h
    rw [Ty.WellFormed] at hwf
    rw [isDynamicType] at hstatic
    obtain ⟨vs, rfl, hvs⟩ := h
    rw [typeSize, if_neg (by simp [hstatic])]
    show (layout 32 word (encodeFields elems vs)).length = _
    rw [layout_length word_length, tails_inline (encodeFields_inline hstatic),
      headWidth_fields hwf.2.2.2.2 hvs]
    rfl

/-- Every value takes its `typeSize` in the head. -/
theorem part_width : ∀ {t : Ty} {v : Value}, t.WellFormed → HasType t v →
    (part t v).width 32 = typeSize t
  | t, v, hwf, h => by
    rw [part, Piece.width]
    by_cases hdyn : isDynamicType t = true
    · rw [if_pos hdyn, typeSize_dynamic hdyn]
    · rw [if_neg hdyn]
      exact encode_length hwf h (by simpa using hdyn)

theorem headWidth_fields : ∀ {ts : List Ty} {vs : List Value}, AllWellFormed ts →
    HaveTypes ts vs → headWidth 32 (encodeFields ts vs) = sumSizes ts
  | [], [], _, _ => rfl
  | t :: ts, v :: vs, hwf, h => by
    rw [AllWellFormed] at hwf
    rw [HaveTypes] at h
    rw [encodeFields, headWidth_cons, sumSizes, headWidth_fields hwf.2.2 h.2]
    exact congrArg (· + sumSizes ts) (part_width hwf.1 h.1)
  | [], _ :: _, _, h => by simp [HaveTypes] at h
  | _ :: _, [], _, h => by simp [HaveTypes] at h
end

end GoEthereum.Abi

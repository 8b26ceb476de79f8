import GoEthereum.Abi.RoundTrip

/-!
# Unpacking arbitrary data

`toGoType` checks every offset and every length before it uses them, so it
ends with a value or an error whatever the data is (`toGoType_survives`). The
one exception is the Go type of the result: `forEachUnpack` compares
`start + 32 * size` with the length of the data, and for an array type of
`2^58` elements or more the product wraps. An array that is larger than the
address space then gets as far as `reflect.ArrayOf`, which panics. `NewType`
has built the Go type of every component of a tuple, so this can only happen
to the arguments themselves (`Trips`).
-/

namespace GoEthereum.Abi

open HeadTail List

variable {α : Type} {r : Except Err α} {elem t : Ty} {β : Type} {Q : α → Prop}

variable {w : Bytes} {index virtualArgs : Int} {unpack : Int → Except Err Value}
  {arguments : List Ty} {f : α → β} {R : β → Prop}

/-! ## Outcomes -/

/-- The call ends, with an error or with a result such that `Q`. -/
inductive Survives {α : Type} : Except Err α → (α → Prop) → Prop
  | ok {a : α} {Q : α → Prop} : Q a → Survives (.ok a) Q
  | error {e : Err} {Q : α → Prop} : e ≠ .panic → Survives (.error e) Q

theorem Survives.bind {f : α → Except Err β} (h : Survives r Q) (hf : ∀ a, Q a → Survives (f a) R) :
    Survives (r >>= f) R := by
  cases h with
  | ok ha => exact hf _ ha
  | error he => exact .error he

theorem Survives.map (h : Survives r Q) (hf : ∀ a, Q a → R (f a)) : Survives (f <$> r) R := by
  cases h with
  | ok ha => exact .ok (hf _ ha)
  | error he => exact .error he

theorem Survives.mono {R : α → Prop} (h : Survives r Q) (hQR : ∀ a, Q a → R a) : Survives r R := by
  cases h with
  | ok ha => exact .ok (hQR _ ha)
  | error he => exact .error he

theorem Survives.not_panic (h : Survives r Q) : r ≠ .error .panic := by
  rintro rfl
  cases h with
  | error he => exact he rfl

/-! ## Words and offsets -/

section

variable {b : Bytes} {pos : Nat} (hmax : b.length ≤ maxAlloc) (hpos : pos ≤ b.length)

include hmax hpos

theorem firstWord_survives :
    Survives (firstWord pos b) fun w => w.length = 32 ∧ pos + 32 ≤ b.length := by
  rw [firstWord, int64_add32 hmax hpos]
  split
  · exact .error (by rintro ⟨⟩)
  next hle =>
  have hfits : pos + 32 ≤ b.length := by omega
  rw [subslice_eq (Nat.le_add_right _ _) hfits]
  refine .ok ⟨?_, hfits⟩
  rw [length_take, length_drop]
  omega

theorem tuplePointsTo_survives (hfits : pos + 32 ≤ b.length) :
    Survives (tuplePointsTo pos b) fun off => off ≤ b.length := by
  rw [tuplePointsTo, int64_add32 hmax hpos, subslice_eq (Nat.le_add_right _ _) hfits]
  show Survives (if beNat _ > b.length then _ else if _ then _ else _) _
  split
  · exact .error (by rintro ⟨⟩)
  · rename_i hle
    split
    · exact .error (by rintro ⟨⟩)
    · exact .ok (Nat.not_lt.mp hle)

theorem tupleStart_survives (hfits : pos + 32 ≤ b.length) (elems : List Ty) :
    Survives (tupleStart elems pos b) fun start => ∃ n : Nat, start = n ∧ n ≤ b.length ∧
      (anyDynamic elems = false → n = pos) := by
  rw [tupleStart]
  split
  · rename_i hdyn
    exact (tuplePointsTo_survives hmax hpos hfits).map fun off hoff =>
      ⟨off, rfl, hoff, fun hn => by rw [hdyn] at hn; cases hn⟩
  · exact .ok ⟨pos, rfl, hpos, fun _ => rfl⟩

theorem lengthPrefix_survives :
    Survives (lengthPrefix pos b) fun p => p.1 + p.2 ≤ b.length ∧ pos + 32 ≤ b.length := by
  rw [lengthPrefix, int64_add32 hmax hpos]
  split
  · exact .error (by rintro ⟨⟩)
  next hle =>
  have hfits : pos + 32 ≤ b.length := by omega
  rw [lengthPrefixPointsTo, int64_add32 hmax hpos, subslice_eq (Nat.le_add_right _ _) hfits,
    ok_bind]
  set offEnd := beNat ((b.drop pos).take (pos + 32 - pos)) + 32 with hoffEnd
  dsimp only
  split
  · exact .error (by rintro ⟨⟩)
  next hoff =>
  split
  · exact .error (by rintro ⟨⟩)
  have hlo : (offEnd : Int) - 32 = ((offEnd - 32 : Nat) : Int) := by omega
  rw [hlo, subslice_eq (by omega) (by omega)]
  show Survives (if 2 ^ 63 ≤ offEnd + beNat _ then _ else if _ then _ else _) _
  split
  · exact .error (by rintro ⟨⟩)
  · split
    · exact .error (by rintro ⟨⟩)
    · rename_i hend
      exact .ok ⟨Nat.not_lt.mp hend, hfits⟩

end

/-- The elements of an array start within the data. -/
theorem arrayStart_eq {b : Bytes} {pos : Nat} (hpos : pos ≤ b.length)
    (h : ¬(isDynamicType elem = true ∧ arrayStart elem pos w > b.length)) :
    ∃ start : Nat, arrayStart elem pos w = start ∧ start ≤ b.length ∧
      (isDynamicType elem = false → start = pos) := by
  by_cases hdyn : isDynamicType elem = true
  · rw [not_and, arrayStart, if_pos hdyn] at h
    refine ⟨beNat (w.drop 24), by rw [arrayStart, if_pos hdyn], ?_, fun hn => ?_⟩
    · have := h hdyn
      omega
    · rw [hdyn] at hn
      cases hn
  · exact ⟨pos, by rw [arrayStart, if_neg hdyn], hpos, fun _ => rfl⟩

/-! ## Elements -/

theorem narrow_survives (kind : Kind) (lo hi n : Int) :
    Survives (narrow kind lo hi n) fun _ => True := by
  rw [narrow]
  split
  · exact .ok trivial
  · exact .error (by rintro ⟨⟩)

theorem readUint_survives (size : Nat) (b : Bytes) : Survives (readUint size b) fun _ => True := by
  unfold readUint
  split
  iterate 4 exact narrow_survives ..
  exact .ok trivial

theorem readInt_survives (size : Nat) (b : Bytes) : Survives (readInt size b) fun _ => True := by
  unfold readInt
  split
  iterate 4 exact narrow_survives ..
  exact .ok trivial

theorem readBool_survives (h : w.length = 32) : Survives (readBool w) fun _ => True := by
  have hlen : (w.drop 31).length = 1 := by rw [length_drop, h]
  obtain ⟨x, hx⟩ := length_eq_one_iff.mp hlen
  rw [readBool, hx]
  split
  · dsimp only
    split
    · exact .ok trivial
    · split
      · exact .ok trivial
      · exact .error (by rintro ⟨⟩)
  · exact .error (by rintro ⟨⟩)

theorem readFunctionType_survives (w : Bytes) : Survives (readFunctionType w) fun _ => True := by
  rw [readFunctionType]
  split
  · exact .error (by rintro ⟨⟩)
  · exact .ok trivial

/-! ## Values -/

/-- What `toGoType` owes to its caller: after a success the head of the value
lies within the data. -/
def Reads (t : Ty) (pos : Nat) (b : Bytes) : Prop :=
  Survives (toGoType t pos b) fun _ => pos + typeSize t ≤ b.length

theorem unpackEach_survives {b : Bytes} (hwf : elem.WellFormed) (hmax : b.length ≤ maxAlloc)
    (hunpack : ∀ i : Nat, i ≤ b.length → Survives (unpack i) fun _ => i + typeSize elem ≤ b.length) :
    ∀ (n : Nat) {pos : Nat}, pos ≤ b.length →
    Survives (unpackEach unpack (getTypeSize elem) n pos) fun _ =>
      pos + n * typeSize elem ≤ b.length
  | 0, pos, hpos => .ok (by simpa using hpos)
  | n + 1, pos, hpos => by
    rw [unpackEach]
    refine (hunpack pos hpos).bind fun v hv => ?_
    have hsmall : typeSize elem < 2 ^ 63 ∧ pos + typeSize elem < 2 ^ 63 := by
      rw [maxAlloc] at hmax
      omega
    have hnext : int64 ((pos : Int) + getTypeSize elem) = ((pos + typeSize elem : Nat) : Int) := by
      rw [getTypeSize_eq hwf hsmall.1, int64_of_lt (by positivity) (by omega)]
      push_cast
      rfl
    rw [hnext]
    refine (unpackEach_survives hwf hmax hunpack n hv).bind fun vs hvs => ?_
    refine .ok ?_
    rw [Nat.succ_mul]
    omega

theorem forEachUnpack_survives {b : Bytes} (unpack : Int → Except Err Value)
    (hbuild : t.buildable = true) (hwf : elem.WellFormed) (hmax : b.length ≤ maxAlloc)
    (hunpack : ∀ i : Nat, i ≤ b.length → Survives (unpack i) fun _ => i + typeSize elem ≤ b.length)
    (n : Nat) :
    Survives (forEachUnpack t elem unpack b 0 n) fun _ => n * typeSize elem ≤ b.length := by
  rw [forEachUnpack, if_neg (by omega)]
  split
  · exact .error (by rintro ⟨⟩)
  · rw [getTypeKind_ok hbuild, ok_bind, Int.toNat_natCast]
    have hloop := unpackEach_survives hwf hmax hunpack n (Nat.zero_le b.length)
    exact hloop.mono fun _ h => by rwa [Nat.zero_add] at h

/-- The next component stands behind the head of the one that was read. -/
theorem next_field {b : Bytes} {pos : Nat} (hwf : t.WellFormed) (hmax : b.length ≤ maxAlloc)
    (hindex : 0 ≤ index) (hvirt : 0 ≤ virtualArgs) (hposeq : (index + virtualArgs) * 32 = pos)
    (hle : pos + typeSize t ≤ b.length) :
    0 ≤ int64 (virtualArgs + virtualArgsOf t) ∧
      (index + 1 + int64 (virtualArgs + virtualArgsOf t)) * 32 = ((pos + typeSize t : Nat) : Int) := by
  rw [maxAlloc] at hmax
  have hwords := virtualArgsOf_eq hwf (by omega)
  have hpos32 := typeSize_pos hwf
  rw [int64_of_lt (by omega) (by omega)]
  push_cast
  omega

theorem field_index {b : Bytes} {pos : Nat} (hmax : b.length ≤ maxAlloc) (hpos : pos ≤ b.length)
    (hposeq : (index + virtualArgs) * 32 = pos) : int64 ((index + virtualArgs) * 32) = pos := by
  rw [maxAlloc] at hmax
  rw [hposeq, int64_of_lt (by positivity) (by omega)]

mutual
/-- Data of any form is read or refused. -/
theorem toGoType_survives : ∀ {t : Ty}, t.WellFormed → t.buildable = true → ∀ {b : Bytes} {pos : Nat},
    b.length ≤ maxAlloc → pos ≤ b.length → Reads t pos b
  | .int size, _, _, b, pos, hmax, hpos => by
    rw [Reads, toGoType]
    exact (firstWord_survives hmax hpos).bind fun w hw =>
      (readInt_survives size w).mono fun _ _ => hw.2
  | .uint size, _, _, b, pos, hmax, hpos => by
    rw [Reads, toGoType]
    exact (firstWord_survives hmax hpos).bind fun w hw =>
      (readUint_survives size w).mono fun _ _ => hw.2
  | .bool, _, _, b, pos, hmax, hpos => by
    rw [Reads, toGoType]
    exact (firstWord_survives hmax hpos).bind fun w hw =>
      (readBool_survives hw.1).mono fun _ _ => hw.2
  | .address, _, _, b, pos, hmax, hpos => by
    rw [Reads, toGoType]
    exact (firstWord_survives hmax hpos).bind fun w hw => .ok hw.2
  | .fixedBytes n, _, _, b, pos, hmax, hpos => by
    rw [Reads, toGoType]
    exact (firstWord_survives hmax hpos).bind fun w hw => .ok hw.2
  | .function, _, _, b, pos, hmax, hpos => by
    rw [Reads, toGoType]
    exact (firstWord_survives hmax hpos).bind fun w hw =>
      (readFunctionType_survives w).mono fun _ _ => hw.2
  | .string, _, _, b, pos, hmax, hpos => by
    rw [Reads, toGoType]
    refine (lengthPrefix_survives hmax hpos).bind fun p hp => ?_
    dsimp only
    rw [← Nat.cast_add, subslice_eq (Nat.le_add_right _ _) hp.1]
    exact .ok hp.2
  | .bytes, _, _, b, pos, hmax, hpos => by
    rw [Reads, toGoType]
    refine (lengthPrefix_survives hmax hpos).bind fun p hp => ?_
    dsimp only
    rw [← Nat.cast_add, subslice_eq (Nat.le_add_right _ _) hp.1]
    exact .ok hp.2
  | .slice elem, hwf, hbuild, b, pos, hmax, hpos => by
    rw [Reads, toGoType]
    rw [Ty.WellFormed] at hwf
    refine (lengthPrefix_survives hmax hpos).bind fun p hp => ?_
    dsimp only
    rw [sliceFrom_eq (by omega), ok_bind]
    exact (forEachUnpack_survives (fun i => toGoType elem i (b.drop p.1)) hbuild hwf
      (drop_short hmax) (fun i hi => toGoType_survives hwf hbuild (drop_short hmax) hi)
      p.2).bind fun vs _ => .ok hp.2
  | .array n elem, hwf, hbuild, b, pos, hmax, hpos => by
    have hbuild' := hbuild
    rw [Ty.buildable, Bool.and_eq_true] at hbuild'
    rw [Reads, toGoType]
    rw [Ty.WellFormed] at hwf
    refine (firstWord_survives hmax hpos).bind fun w hw => ?_
    split
    · exact .error (by rintro ⟨⟩)
    next hwithin =>
    obtain ⟨start, hstart, hle, hinline⟩ := arrayStart_eq hpos hwithin
    rw [hstart, sliceFrom_eq hle, ok_bind]
    refine (forEachUnpack_survives (fun i => toGoType elem i (b.drop start)) hbuild hwf.2.2
      (drop_short hmax) (fun i hi => toGoType_survives hwf.2.2 hbuild'.1 (drop_short hmax) hi)
      n).bind fun vs hvs => .ok ?_
    rw [typeSize]
    split
    · exact hw.2
    · rename_i hdyn
      have hpos' := hinline (Bool.eq_false_iff.mpr hdyn)
      rw [length_drop] at hvs
      omega
  | .tuple rawNames elems, hwf, _, b, pos, hmax, hpos => by
    rw [Reads, toGoType]
    rw [Ty.WellFormed] at hwf
    refine (firstWord_survives hmax hpos).bind fun w hw => ?_
    refine (tupleStart_survives hmax hpos hw.2 elems).bind fun start hstart => ?_
    obtain ⟨n, rfl, hn, hinline⟩ := hstart
    rw [sliceFrom_eq hn, ok_bind]
    refine (unpackFields_survives hwf.2.2.2.2 (drop_short hmax) (Nat.zero_le _) (Int.le_refl 0)
      (Int.le_refl 0) rfl).bind fun vs hvs => ?_
    refine .ok ?_
    rw [typeSize]
    split
    · exact hw.2
    · rename_i hdyn
      have hpos' := hinline (Bool.eq_false_iff.mpr hdyn)
      rw [length_drop] at hvs
      omega

theorem unpackFields_survives : ∀ {ts : List Ty}, AllWellFormed ts → ∀ {b : Bytes} {pos : Nat}
    {index virtualArgs : Int}, b.length ≤ maxAlloc → pos ≤ b.length → 0 ≤ index →
    0 ≤ virtualArgs → (index + virtualArgs) * 32 = pos →
    Survives (unpackFields ts index virtualArgs b) fun _ => pos + sumSizes ts ≤ b.length
  | [], _, b, pos, _, _, _, hpos, _, _, _ => by
    rw [unpackFields]
    exact .ok hpos
  | t :: ts, hwf, b, pos, index, virtualArgs, hmax, hpos, hindex, hvirt, hposeq => by
    rw [AllWellFormed] at hwf
    rw [unpackFields, field_index hmax hpos hposeq]
    refine Survives.bind (toGoType_survives hwf.1 hwf.2.1 hmax hpos) fun v hv => ?_
    obtain ⟨hvirt', hposeq'⟩ := next_field hwf.1 hmax hindex hvirt hposeq hv
    refine (unpackFields_survives hwf.2.2 hmax hv (by omega) hvirt' hposeq').bind
      fun vs hvs => .ok ?_
    rw [sumSizes]
    omega
end

/-! ## Types that cannot be built -/

/-- Decoding a slice or an array at `index` gets as far as its Go type: the
data passes the checks before, the last of them on a product that may have
wrapped. -/
def Reaches : Ty → Int → Bytes → Prop
  | .slice _, index, output => ∃ start length, lengthPrefix index output = .ok (start, length) ∧
      start + 32 * length ≤ output.length
  | .array n elem, index, output => ∃ w, firstWord index output = .ok w ∧
      arrayStart elem index w ≤ output.length ∧
      arrayStart elem index w + int64 (32 * n) ≤ output.length
  | _, _, _ => False

/-- Some argument has a Go type that cannot be built, the arguments before it
can be read from the data, and it is reached. -/
def Trips (arguments : List Ty) (data : Bytes) : Prop :=
  ∃ pre t post, arguments = pre ++ t :: post ∧ (∃ vs, UnpackValues pre data = .ok vs) ∧
    t.buildable = false ∧ Reaches t (sumSizes pre) data

theorem forEachUnpack_unbuildable {b : Bytes} (hbuild : t.buildable = false) (n : Nat) :
    forEachUnpack t elem unpack b 0 n =
      if int64 (32 * n) > b.length then .error .overBoundary else .error .panic := by
  have hwrap : int64 (0 + int64 (32 * (n : Int))) = int64 (32 * n) := by
    rw [Int.zero_add, int64, int64, Int.bmod_bmod]
  have hkind : getTypeKind t = .error .panic := by
    rw [getTypeKind, if_neg (by rw [hbuild]; exact Bool.false_ne_true)]
  rw [forEachUnpack, if_neg (by omega), hwrap, hkind]
  rfl

/-- An argument whose Go type cannot be built panics exactly when it is
reached, and is never read. -/
theorem toGoType_unbuildable {b : Bytes} {pos : Nat} (hbuild : t.buildable = false)
    (hmax : b.length ≤ maxAlloc) (hpos : pos ≤ b.length) :
    ∃ e, toGoType t pos b = .error e ∧ (e = .panic ↔ Reaches t pos b) := by
  cases t with
  | slice elem =>
    rw [toGoType]
    cases hpoints : lengthPrefix pos b with
    | error e =>
      refine ⟨e, rfl, ?_, ?_⟩
      · rintro rfl
        exact absurd hpoints (lengthPrefix_survives hmax hpos).not_panic
      · rintro ⟨start, n, h, _⟩
        rw [hpoints] at h
        cases h
    | ok p =>
      have hp : p.1 + p.2 ≤ b.length := by
        have h := lengthPrefix_survives hmax hpos
        rw [hpoints] at h
        cases h with
        | ok h => exact h.1
      have hwrap : int64 (32 * (p.2 : Int)) = 32 * p.2 := by
        rw [maxAlloc] at hmax
        exact int64_of_lt (by positivity) (by omega)
      have hreach : Reaches (.slice elem) pos b ↔ p.1 + 32 * p.2 ≤ b.length := by
        constructor
        · rintro ⟨start, n, h, hle⟩
          rw [hpoints] at h
          cases h
          exact hle
        · exact fun h => ⟨p.1, p.2, hpoints, h⟩
      rw [ok_bind]
      dsimp only
      rw [sliceFrom_eq (by omega), ok_bind, forEachUnpack_unbuildable hbuild, hwrap,
        length_drop, hreach]
      split
      · exact ⟨.overBoundary, rfl, (by rintro ⟨⟩), fun h => by omega⟩
      · exact ⟨.panic, rfl, fun _ => by omega, fun _ => rfl⟩
  | array n elem =>
    rw [toGoType]
    cases hword : firstWord pos b with
    | error e =>
      refine ⟨e, rfl, ?_, ?_⟩
      · rintro rfl
        exact absurd hword (firstWord_survives hmax hpos).not_panic
      · rintro ⟨w, h, _⟩
        rw [hword] at h
        cases h
    | ok w =>
      have hreach : Reaches (.array n elem) pos b ↔ arrayStart elem pos w ≤ b.length ∧
          arrayStart elem pos w + int64 (32 * n) ≤ b.length := by
        constructor
        · rintro ⟨w', h, hle⟩
          rw [hword] at h
          cases h
          exact hle
        · exact fun h => ⟨w, hword, h⟩
      rw [ok_bind]
      split
      · rename_i hover
        exact ⟨.overBoundary, rfl, (by rintro ⟨⟩), fun h => by
          have := (hreach.mp h).1
          omega⟩
      rename_i hwithin
      obtain ⟨start, hstart, hle, _⟩ := arrayStart_eq hpos hwithin
      rw [hstart] at hreach
      rw [hstart, sliceFrom_eq hle, ok_bind, forEachUnpack_unbuildable hbuild,
        length_drop, hreach]
      split
      · exact ⟨.overBoundary, rfl, (by rintro ⟨⟩), fun h => by omega⟩
      · exact ⟨.panic, rfl, fun _ => by omega, fun _ => rfl⟩
  | int _ | uint _ | bool | string | tuple _ _ | address | fixedBytes _ | bytes | function =>
    cases hbuild

theorem bind_ok_eq_error {e : Err} : (r >>= fun a => .ok (f a)) = .error e ↔ r = .error e := by
  cases r with
  | error e' =>
    constructor
    · intro h
      cases h
      rfl
    · intro h
      cases h
      rfl
  | ok a => exact ⟨(by rintro ⟨⟩), by rintro ⟨⟩⟩

/-- The loop over the arguments panics at the first argument that trips. -/
theorem unpackFields_panic : ∀ {ts : List Ty}, (∀ t ∈ ts, t.WellFormed) → ∀ {b : Bytes} {pos : Nat}
    {index virtualArgs : Int}, b.length ≤ maxAlloc → pos ≤ b.length → 0 ≤ index →
    0 ≤ virtualArgs → (index + virtualArgs) * 32 = pos →
    (unpackFields ts index virtualArgs b = .error .panic ↔
      ∃ pre t post, ts = pre ++ t :: post ∧ (∃ vs, unpackFields pre index virtualArgs b = .ok vs) ∧
        t.buildable = false ∧ Reaches t ((pos + sumSizes pre : Nat) : Int) b)
  | [], _, b, pos, _, _, _, _, _, _, _ => by
    rw [unpackFields]
    constructor
    · rintro ⟨⟩
    · rintro ⟨pre, t, post, h, _⟩
      cases pre with
      | nil => cases h
      | cons _ _ => cases h
  | t :: ts, hwf, b, pos, index, virtualArgs, hmax, hpos, hindex, hvirt, hposeq => by
    have hwft := hwf t (mem_cons_self ..)
    have hhead : ∀ us, unpackFields (t :: us) index virtualArgs b =
        (toGoType t pos b >>= fun v => unpackFields us (index + 1)
          (int64 (virtualArgs + virtualArgsOf t)) b >>= fun vs => .ok (v :: vs)) := by
      intro us
      rw [unpackFields, field_index hmax hpos hposeq]
      rfl
    by_cases hbuild : t.buildable = true
    · have hreads := toGoType_survives hwft hbuild hmax hpos
      rw [Reads] at hreads
      cases hv : toGoType t pos b with
      | error e =>
        rw [hv] at hreads
        rw [hhead, hv]
        constructor
        · intro h
          cases h
          exact absurd rfl hreads.not_panic
        · rintro ⟨pre, u, post, h, ⟨vs, hvs⟩, hu, _⟩
          cases pre with
          | nil =>
            cases h
            rw [hbuild] at hu
            cases hu
          | cons p pre =>
            cases h
            rw [hhead, hv] at hvs
            cases hvs
      | ok v =>
        rw [hv] at hreads
        cases hreads with
        | ok hle =>
        obtain ⟨hvirt', hposeq'⟩ := next_field hwft hmax hindex hvirt hposeq hle
        have hwfs : ∀ u ∈ ts, u.WellFormed := fun u hu => hwf u (mem_cons_of_mem _ hu)
        have ih := unpackFields_panic hwfs hmax hle (by omega) hvirt' hposeq'
        rw [hhead, hv, ok_bind, bind_ok_eq_error, ih]
        constructor
        · rintro ⟨pre, u, post, h, ⟨vs, hvs⟩, hu, hreach⟩
          refine ⟨t :: pre, u, post, by rw [h]; rfl, ⟨v :: vs, ?_⟩, hu, ?_⟩
          · rw [hhead, hv, ok_bind, hvs]
            rfl
          · rwa [sumSizes, ← Nat.add_assoc]
        · rintro ⟨pre, u, post, h, ⟨vs, hvs⟩, hu, hreach⟩
          cases pre with
          | nil =>
            cases h
            rw [hbuild] at hu
            cases hu
          | cons p pre =>
            cases h
            rw [hhead, hv, ok_bind] at hvs
            rw [sumSizes, ← Nat.add_assoc] at hreach
            obtain ⟨us, hpre, hvs⟩ := ok_of_bind hvs
            exact ⟨pre, u, post, rfl, ⟨us, hpre⟩, hu, hreach⟩
    · obtain ⟨e, he, hpanic⟩ := toGoType_unbuildable (Bool.eq_false_iff.mpr hbuild) hmax hpos
      rw [hhead, he]
      constructor
      · intro h
        cases h
        exact ⟨[], t, ts, rfl, ⟨[], rfl⟩, Bool.eq_false_iff.mpr hbuild, hpanic.mp rfl⟩
      · rintro ⟨pre, u, post, h, ⟨vs, hvs⟩, hu, hreach⟩
        cases pre with
        | nil =>
          cases h
          exact congrArg Except.error (hpanic.mpr hreach)
        | cons p pre =>
          cases h
          rw [hhead, he] at hvs
          cases hvs

theorem UnpackValues_panic {data : Bytes} (hwf : ∀ t ∈ arguments, t.WellFormed)
    (hmax : data.length ≤ maxAlloc) :
    UnpackValues arguments data = .error .panic ↔ Trips arguments data := by
  have h := unpackFields_panic hwf hmax (Nat.zero_le data.length) (Int.le_refl 0) (Int.le_refl 0)
    rfl
  simp only [Nat.zero_add] at h
  exact h

/-! ## Both directions -/

/-- The values of some arguments: Go values of their types, which have to
exist, with an encoding that fits a slice. -/
def Values (arguments : List Ty) (vs : List Value) : Prop :=
  (∀ t ∈ arguments, t.buildable = true) ∧ HaveTypes arguments vs ∧
    (encodeArgs arguments vs).length ≤ maxAlloc

/-- Packing succeeds, and unpacking returns what was packed. -/
def RoundTrips (arguments : List Ty) (vs : List Value) : Prop :=
  ∃ data, Pack arguments vs = .ok data ∧ UnpackValues arguments data = .ok vs

theorem allWellFormed_of {ts : List Ty} (hwf : ∀ t ∈ ts, t.WellFormed)
    (hbuild : ∀ t ∈ ts, t.buildable = true) : AllWellFormed ts := by
  induction ts with
  | nil => trivial
  | cons t ts ih =>
    exact ⟨hwf t (mem_cons_self ..), hbuild t (mem_cons_self ..),
      ih (fun u hu => hwf u (mem_cons_of_mem _ hu)) (fun u hu => hbuild u (mem_cons_of_mem _ hu))⟩

theorem roundTrips_iff {vs : List Value} (hwf : ∀ t ∈ arguments, t.WellFormed)
    (h : Values arguments vs) : RoundTrips arguments vs ↔ CleanAll arguments vs := by
  obtain ⟨hbuild, hty, hlen⟩ := h
  have hall := allWellFormed_of hwf hbuild
  constructor
  · rintro ⟨data, hpack, _⟩
    exact cleanAll_of_Pack hall hty hpack
  · intro hclean
    have hfound := foundAll_layout word_length (encodeFields arguments vs) []
    rw [append_nil] at hfound
    refine ⟨encodeArgs arguments vs, Pack_eq hall hty hclean ?_, ?_⟩
    · rw [maxAlloc] at hlen
      omega
    · exact unpackFields_found hall hty 0 0 0 hlen (Int.le_refl 0) (Int.le_refl 0) rfl hfound

/-- A tuple `(uint8 a, string[] b)`. -/
def named : Ty := .tuple [['a'], ['b']] [.uint 8, .slice .string]

def namedValue : Value :=
  .struct [['A'], ['B']] [.num .uint8 7, .slice .string [.string [104, 105], .string []]]

theorem named_wellFormed : ∀ t ∈ [named], t.WellFormed := by
  intro t ht
  rw [mem_singleton] at ht
  subst ht
  refine ⟨by decide, rfl, by decide, by decide, ⟨by decide, by decide⟩, rfl, trivial, rfl, trivial⟩

theorem namedValue_values : Values [named] [namedValue] := by
  refine ⟨by simp [named, Ty.buildable], ?_, by decide +kernel⟩
  refine ⟨⟨_, rfl, ⟨7, rfl, by decide, by decide⟩, ⟨_, rfl, ?_⟩, trivial⟩, trivial⟩
  intro x hx
  simp only [mem_cons, not_mem_nil, or_false] at hx
  rcases hx with rfl | rfl
  · exact ⟨_, rfl⟩
  · exact ⟨_, rfl⟩

/-- A struct with the members `a` and `_a`. -/
def clashing : Ty := .tuple [['a'], ['_', 'a']] [.uint 256, .uint 256]

/-- A value of it: `NewType` calls the fields `A` and `A0`. -/
def clashingValue : Value := .struct [['A'], ['A', '0']] [.num .ptr 1, .num .ptr 2]

theorem clashingValue_values : Values [clashing] [clashingValue] := by
  refine ⟨by simp [clashing, Ty.buildable], ?_, by decide⟩
  exact ⟨⟨_, rfl, ⟨1, rfl, by decide, by decide⟩, ⟨2, rfl, by decide, by decide⟩, trivial⟩, trivial⟩

/-- `uint256[2305843009213693952]`. -/
def oversize : Ty := .array (2 ^ 61) (.uint 256)

theorem oversize_trips : Trips [oversize] (replicate 32 0) := by
  have hword : firstWord ((0 : Nat) : Int) (replicate 32 0) = .ok (replicate 32 0) :=
    firstWord_eq (Nat.zero_le _) (append_nil _).symm rfl (by decide)
  exact ⟨[], oversize, [], rfl, ⟨[], rfl⟩, by decide, _, hword, by decide, by decide⟩

end GoEthereum.Abi

import GoEthereum.Abi.Packing

/-!
# Unpacking an encoding

`toGoType` reads a value back from wherever its encoding stands in the data:
in place for a static type, behind an offset for a dynamic one, with anything
around it (`toGoType_found`). Every slice, array and tuple is a layout, so its
elements can be found again in the part of the data that starts with it.
-/

namespace GoEthereum.Abi

open HeadTail List

variable {b rest w : Bytes} {n pos : Nat} {elem t : Ty} {v : Value}

/-- The largest allocation of the Go runtime on a 64-bit machine; no slice is
longer. -/
def maxAlloc : Nat := 2 ^ 48

/-! ## Words -/

theorem ok_bind {α β : Type} (a : α) (f : α → Except Err β) : (Except.ok a >>= f) = f a := rfl

theorem subslice_eq {lo hi : Nat} (h : lo ≤ hi) (hhi : hi ≤ b.length) :
    subslice b lo hi = .ok ((b.drop lo).take (hi - lo)) := by
  have hlen : (hi : Int) ≤ b.length := by exact_mod_cast hhi
  rw [subslice, if_pos ⟨by positivity, by exact_mod_cast h, hlen⟩]
  have hdiff : ((hi : Int) - lo).toNat = hi - lo := by omega
  rw [hdiff, Int.toNat_natCast]

theorem sliceFrom_eq {lo : Nat} (h : lo ≤ b.length) : sliceFrom b lo = .ok (b.drop lo) := by
  rw [sliceFrom, subslice_eq h (Nat.le_refl _), take_of_length_le (by simp)]

theorem int64_add32 (hmax : b.length ≤ maxAlloc) (h : pos ≤ b.length) :
    int64 ((pos : Int) + 32) = ((pos + 32 : Nat) : Int) := by
  rw [maxAlloc] at hmax
  push_cast
  exact int64_of_lt (by positivity) (by omega)

theorem drop_length_le (hpos : pos ≤ b.length) (h : b.drop pos = w ++ rest) :
    pos + w.length ≤ b.length := by
  have hlen := congrArg length h
  rw [length_drop, length_append] at hlen
  omega

theorem drop_short (h : b.length ≤ maxAlloc) : (b.drop n).length ≤ maxAlloc := by
  rw [length_drop]
  omega

section

variable (hpos : pos ≤ b.length) (h : b.drop pos = w ++ rest)
include hpos h

/-- The word at a position. -/
theorem word_at (hw : w.length = 32)
    (hmax : b.length ≤ maxAlloc) : subslice b pos (int64 ((pos : Int) + 32)) = .ok w := by
  have hle := drop_length_le hpos h
  rw [int64_add32 hmax hpos, subslice_eq (Nat.le_add_right _ _) (by omega), h,
    Nat.add_sub_cancel_left, ← hw, take_left]

theorem enough (hw : 32 ≤ w.length)
    (hmax : b.length ≤ maxAlloc) : ¬int64 ((pos : Int) + 32) > b.length := by
  have hle := drop_length_le hpos h
  rw [int64_add32 hmax hpos]
  omega

theorem firstWord_eq (hw : w.length = 32)
    (hmax : b.length ≤ maxAlloc) : firstWord pos b = .ok w := by
  rw [firstWord, if_neg (enough hpos h hw.ge hmax), word_at hpos h hw hmax]

end

theorem beNat_word (h : n < 2 ^ 256) : beNat (word n) = n := by
  have hmod : ((n : Int) % 2 ^ 256).toNat = n := by
    rw [Int.emod_eq_of_lt (by positivity) (by exact_mod_cast h), Int.toNat_natCast]
  rw [word, u256Bytes, hmod, beNat_beBytes, Nat.mod_eq_of_lt (by simpa using h)]

theorem beBytes_drop (m n x : Nat) : (beBytes (m + n) x).drop m = beBytes n x := by
  rw [beBytes_add, drop_left' (beBytes_length _ _)]

theorem beNat_word_low (h : n ≤ maxAlloc) : beNat ((word n).drop 24) = n := by
  rw [maxAlloc] at h
  have hmod : ((n : Int) % 2 ^ 256).toNat = n := by
    rw [Int.emod_eq_of_lt (by positivity) (by omega), Int.toNat_natCast]
  rw [word, u256Bytes, hmod, beBytes_drop 24 8, beNat_beBytes, Nat.mod_eq_of_lt (by omega)]

theorem beNat_word_le (h : n ≤ b.length) (hmax : b.length ≤ maxAlloc) : beNat (word n) = n := by
  refine beNat_word (lt_of_le_of_lt (h.trans hmax) ?_)
  rw [maxAlloc]
  norm_num

theorem tuplePointsTo_eq {off : Nat} (hpos : pos ≤ b.length) (h : b.drop pos = word off ++ rest)
    (hoff : off ≤ b.length) (hmax : b.length ≤ maxAlloc) : tuplePointsTo pos b = .ok off := by
  have hlt : ¬2 ^ 63 ≤ off := by
    rw [maxAlloc] at hmax
    omega
  rw [tuplePointsTo, word_at hpos h (word_length off) hmax]
  show (if beNat (word off) > b.length then _ else _) = _
  rw [beNat_word_le hoff hmax, if_neg (Nat.not_lt.mpr hoff), if_neg hlt]

theorem lengthPrefix_eq {rest' : Bytes} {off : Nat} (hpos : pos ≤ b.length)
    (h : b.drop pos = word off ++ rest) (hoff : off ≤ b.length) (hn : b.drop off = word n ++ rest')
    (hend : off + 32 + n ≤ b.length) (hmax : b.length ≤ maxAlloc) :
    lengthPrefix pos b = .ok (off + 32, n) := by
  have hsmall : b.length < 2 ^ 63 := hmax.trans_lt (by rw [maxAlloc]; norm_num)
  have hlen : subslice b ((off + 32 : Nat) - 32) (off + 32 : Nat) = .ok (word n) := by
    have hlo : ((off + 32 : Nat) : Int) - 32 = (off : Int) := by push_cast; ring
    rw [hlo, subslice_eq (Nat.le_add_right _ _) (by omega), hn, Nat.add_sub_cancel_left,
      ← word_length n, take_left]
  rw [lengthPrefix, if_neg (enough hpos h (word_length off).ge hmax), lengthPrefixPointsTo,
    word_at hpos h (word_length off) hmax]
  show (if beNat (word off) + 32 > b.length then _ else _) = _
  rw [beNat_word_le hoff hmax, if_neg (by omega), if_neg (by omega), hlen]
  show (if 2 ^ 63 ≤ off + 32 + beNat (word n) then _ else _) = _
  rw [beNat_word_le (n := n) (by omega) hmax, if_neg (by omega), if_neg (by omega)]

/-! ## Elements -/

theorem beNat_u256Bytes (n : Int) : (beNat (u256Bytes n) : Int) = n % 2 ^ 256 := by
  have hpos : 0 ≤ n % 2 ^ 256 := Int.emod_nonneg _ (by norm_num)
  have hlt : n % 2 ^ 256 < 2 ^ 256 := Int.emod_lt_of_pos _ (by norm_num)
  rw [u256Bytes, beNat_beBytes, Nat.mod_eq_of_lt]
  · exact Int.toNat_of_nonneg hpos
  · have h256 : (256 : Nat) ^ 32 = 2 ^ 256 := by norm_num
    rw [h256]
    omega

/-- Reading an integer of Go, whose range is that of its type. -/
theorem narrow_ok_iff {kind : Kind} {lo hi n : Int} (hkind : kind ≠ .ptr)
    (h : HasType t (.num kind n) ↔ lo ≤ n ∧ n ≤ hi) :
    narrow kind lo hi n = .ok v ↔ v = .num kind n ∧ (kind = .ptr ∨ HasType t v) := by
  rw [narrow]
  constructor
  · intro hread
    split at hread
    · next hrange =>
      cases hread
      exact ⟨rfl, .inr (h.mpr hrange)⟩
    · cases hread
  · rintro ⟨rfl, hrange⟩
    exact if_pos (h.mp (hrange.resolve_left hkind))

theorem readUint_ok_iff {size : Nat} : readUint size w = .ok v ↔
    v = .num (reflectIntType true size) (beNat w) ∧
      (reflectIntType true size = .ptr ∨ HasType (.uint size) v) := by
  unfold readUint
  split
  case h_1 | h_2 | h_3 | h_4 =>
    exact narrow_ok_iff (by decide) (by simp [HasType, reflectIntType]; omega)
  have hptr : reflectIntType true size = .ptr := by
    unfold reflectIntType
    split <;> simp_all
  rw [hptr, Except.ok.injEq, eq_comm, and_iff_left (.inl rfl)]

theorem readUint_eq {size : Nat} {n : Int} (hsize : size ≤ 256) (h0 : 0 ≤ n) (h : n < 2 ^ size) :
    readUint size (u256Bytes n) = .ok (.num (reflectIntType true size) n) := by
  have hle : (2 : Int) ^ size ≤ 2 ^ 256 := pow_le_pow_right₀ (by norm_num) hsize
  have hval : (beNat (u256Bytes n) : Int) = n := by
    rw [beNat_u256Bytes, Int.emod_eq_of_lt h0 (h.trans_le hle)]
  exact readUint_ok_iff.mpr ⟨by rw [hval], .inr ⟨n, rfl, h0, h⟩⟩

theorem signed_u256Bytes {n : Int} (hlo : -2 ^ 255 ≤ n) (hhi : n < 2 ^ 255) :
    signed (u256Bytes n) = n := by
  have hval := beNat_u256Bytes n
  unfold signed
  have htest : (beNat (u256Bytes n)).testBit 255 = decide (n < 0) := by
    rw [Nat.testBit_eq_decide_div_mod_eq]
    by_cases hn : n < 0
    · have hmod : n % 2 ^ 256 = n + 2 ^ 256 := by
        rw [← Int.add_emod_right, Int.emod_eq_of_lt (by omega) (by omega)]
      rw [hmod] at hval
      have hdiv : beNat (u256Bytes n) / 2 ^ 255 = 1 := by omega
      rw [hdiv]
      simp [hn]
    · rw [Int.emod_eq_of_lt (by omega) (by omega)] at hval
      have hdiv : beNat (u256Bytes n) / 2 ^ 255 = 0 := by omega
      rw [hdiv]
      simp [hn]
  rw [htest]
  by_cases hn : n < 0
  · have hmod : n % 2 ^ 256 = n + 2 ^ 256 := by
      rw [← Int.add_emod_right, Int.emod_eq_of_lt (by omega) (by omega)]
    rw [if_pos (by simpa using hn), hval, hmod]
    ring
  · rw [if_neg (by simpa using hn), hval, Int.emod_eq_of_lt (by omega) (by omega)]

theorem readInt_ok_iff {size : Nat} : readInt size w = .ok v ↔
    v = .num (reflectIntType false size) (signed w) ∧
      (reflectIntType false size = .ptr ∨ HasType (.int size) v) := by
  unfold readInt
  split
  case h_1 | h_2 | h_3 | h_4 =>
    exact narrow_ok_iff (by decide) (by simp [HasType, reflectIntType]; omega)
  have hptr : reflectIntType false size = .ptr := by
    unfold reflectIntType
    split <;> simp_all
  rw [hptr, Except.ok.injEq, eq_comm, and_iff_left (.inl rfl)]

theorem readInt_eq {size : Nat} {n : Int} (hpos : 0 < size) (hsize : size ≤ 256)
    (hlo : -2 ^ (size - 1) ≤ n) (hhi : n < 2 ^ (size - 1)) :
    readInt size (u256Bytes n) = .ok (.num (reflectIntType false size) n) := by
  have hle : (2 : Int) ^ (size - 1) ≤ 2 ^ 255 := pow_le_pow_right₀ (by norm_num) (by omega)
  have hval := signed_u256Bytes (n := n) (by omega) (by omega)
  exact readInt_ok_iff.mpr ⟨by rw [hval], .inr ⟨n, rfl, hlo, hhi⟩⟩

theorem readBool_eq (b : Bool) : readBool (u256Bytes (if b then 1 else 0)) = .ok (.bool b) := by
  cases b <;> rfl

theorem beNat_replicate_zero (n : Nat) : beNat (replicate n 0) = 0 := by
  induction n with
  | zero => rfl
  | succ n ih =>
    rw [replicate_succ', beNat_concat, ih]
    rfl

theorem readFunctionType_eq (h : b.length = 24) :
    readFunctionType (rightPadBytes b 32) = .ok (.fixed b) := by
  rw [readFunctionType, rightPadBytes, h, ← h, drop_left, take_left,
    if_neg (not_not.mpr (beNat_replicate_zero _))]

theorem rightPadBytes_take (b : Bytes) (l : Nat) : (rightPadBytes b l).take b.length = b := by
  rw [rightPadBytes, take_left]

theorem setBytes_leftPadBytes (h : b.length = 20) : setBytes 20 (leftPadBytes b 32) = b := by
  have hlen : (leftPadBytes b 32).length = 32 := by simp [leftPadBytes, h]
  rw [setBytes, hlen, leftPadBytes, h]
  exact drop_left' (by simp)

/-! ## Values -/

section

variable (h : Found word b pos (part t v))
include h

/-- A static value in place. -/
theorem found_inline (hstatic : isDynamicType t = false) :
    pos ≤ b.length ∧ ∃ rest, b.drop pos = encode t v ++ rest := by
  rw [Found, if_neg (by simp [part, hstatic])] at h
  exact h

/-- A dynamic value behind its offset. -/
theorem found_pointed (hdyn : isDynamicType t = true) :
    ∃ off rest, pos ≤ b.length ∧ b.drop pos = word off ++ rest ∧ off ≤ b.length ∧
      ∃ rest', b.drop off = encode t v ++ rest' := by
  rw [Found, if_pos (by simp [part, hdyn])] at h
  exact h

/-- A static value of one word. -/
theorem found_firstWord (hwf : t.WellFormed) (hty : HasType t v)
    (hstatic : isDynamicType t = false) (hsize : typeSize t = 32) (hmax : b.length ≤ maxAlloc) :
    firstWord pos b = .ok (encode t v) := by
  obtain ⟨hpos, rest, hdrop⟩ := found_inline h hstatic
  exact firstWord_eq hpos hdrop ((encode_length hwf hty hstatic).trans hsize) hmax

/-- A byte string behind its offset and its length. -/
theorem found_bytes {s : Bytes} (hdyn : isDynamicType t = true)
    (henc : encode t v = packBytesSlice s) (hmax : b.length ≤ maxAlloc) :
    ∃ start : Nat, lengthPrefix pos b = .ok (start, s.length) ∧
      subslice b start (start + s.length) = .ok s := by
  obtain ⟨off, rest, hpos, hdrop, hoff, rest', hbody⟩ := found_pointed h hdyn
  rw [henc, packBytesSlice, rightPadBytes, append_assoc, append_assoc] at hbody
  have hlen := drop_length_le hoff hbody
  obtain ⟨rest'', hs⟩ : ∃ rest'', b.drop (off + 32) = s ++ rest'' := by
    rw [← drop_drop, hbody]
    exact ⟨_, drop_left' (u256Bytes_length _)⟩
  have hend : off + 32 + s.length ≤ b.length :=
    drop_length_le (by rw [u256Bytes_length] at hlen; omega) hs
  refine ⟨off + 32, lengthPrefix_eq hpos hdrop hoff hbody hend hmax, ?_⟩
  rw [← Nat.cast_add, subslice_eq (Nat.le_add_right _ _) hend, hs, Nat.add_sub_cancel_left,
    take_left]

end

theorem length_le_layout {vs : List Value} (hwf : elem.WellFormed) (hty : ∀ x ∈ vs, HasType elem x) :
    32 * vs.length ≤ (layout 32 word (vs.map (part elem))).length := by
  have hwidth : ∀ p ∈ vs.map (part elem), p.width 32 = typeSize elem := by
    intro p hp
    obtain ⟨x, hx, rfl⟩ := mem_map.mp hp
    exact part_width hwf (hty x hx)
  rw [layout_length word_length, headWidth_const hwidth, length_map]
  have h32 := Nat.mul_le_mul_left vs.length (typeSize_pos hwf)
  omega

/-- The loop of `forEachUnpack` over elements that can be found. -/
theorem unpackEach_found {unpack : Int → Except Err Value} (hwf : elem.WellFormed)
    (hmax : b.length ≤ maxAlloc) : ∀ {vs : List Value} (pos : Nat),
    (∀ x ∈ vs, HasType elem x) →
    (∀ x ∈ vs, ∀ i : Nat, Found word b i (part elem x) → unpack i = .ok x) →
    FoundAll 32 word b pos (vs.map (part elem)) →
    unpackEach unpack (getTypeSize elem) vs.length pos = .ok vs
  | [], _, _, _, _ => rfl
  | v :: vs, pos, hty, hunpack, hfound => by
    have hle := hfound.1.le word_length
    have hwidth := part_width hwf (hty v (mem_cons_self ..))
    rw [hwidth] at hle
    rw [maxAlloc] at hmax
    have hsize : getTypeSize elem = typeSize elem := getTypeSize_eq hwf (by omega)
    have hnext : int64 ((pos : Int) + getTypeSize elem) = ((pos + typeSize elem : Nat) : Int) := by
      rw [hsize, int64_of_lt (by positivity) (by omega)]
      push_cast
      rfl
    have hrest := unpackEach_found hwf hmax (pos + typeSize elem)
      (fun x hx => hty x (mem_cons_of_mem _ hx))
      (fun x hx => hunpack x (mem_cons_of_mem _ hx)) (hwidth ▸ hfound.2)
    rw [length_cons, unpackEach, hunpack v (mem_cons_self ..) pos hfound.1]
    show (unpackEach unpack (getTypeSize elem) vs.length _ >>= fun rest => .ok (v :: rest)) = _
    rw [hnext, hrest]
    rfl

/-- `forEachUnpack` on data that starts with a layout of the elements. -/
theorem forEachUnpack_layout {vs : List Value} (unpack : Int → Except Err Value)
    (hbuild : t.buildable = true) (hwf : elem.WellFormed) (hmax : b.length ≤ maxAlloc)
    (hty : ∀ x ∈ vs, HasType elem x)
    (hunpack : ∀ x ∈ vs, ∀ i : Nat, Found word b i (part elem x) → unpack i = .ok x)
    (hb : b = layout 32 word (vs.map (part elem)) ++ rest) :
    forEachUnpack t elem unpack b 0 vs.length = .ok vs := by
  have hfits : 32 * vs.length ≤ b.length := by
    rw [hb, length_append]
    exact (length_le_layout hwf hty).trans (Nat.le_add_right _ _)
  have hcheck : ¬int64 (0 + int64 (32 * (vs.length : Int))) > b.length := by
    rw [maxAlloc] at hmax
    rw [int64_of_lt (x := 32 * (vs.length : Int)) (by positivity) (by omega), Int.zero_add,
      int64_of_lt (by positivity) (by omega)]
    omega
  have hloop := unpackEach_found hwf hmax 0 hty hunpack (hb ▸ foundAll_layout word_length _ _)
  rw [forEachUnpack, if_neg (by omega), if_neg hcheck, getTypeKind_ok hbuild]
  exact hloop

/-- The first word and the place of a value that may be in place or behind an
offset. -/
theorem found_start (hwf : t.WellFormed) (h : HasType t v) (hfound : Found word b pos (part t v))
    (hmax : b.length ≤ maxAlloc) :
    ∃ (start : Nat) (w : Bytes), firstWord pos b = .ok w ∧
      (if isDynamicType t then tuplePointsTo pos b = .ok start ∧ beNat (w.drop 24) = start
        else start = pos) ∧
      start ≤ b.length ∧ ∃ rest, b.drop start = encode t v ++ rest := by
  by_cases hdyn : isDynamicType t = true
  · obtain ⟨off, rest, hpos, hdrop, hoff, hbody⟩ := found_pointed hfound hdyn
    refine ⟨off, word off, firstWord_eq hpos hdrop (word_length off) hmax, ?_, hoff, hbody⟩
    rw [if_pos hdyn]
    exact ⟨tuplePointsTo_eq hpos hdrop hoff hmax, beNat_word_low (hoff.trans hmax)⟩
  have hstatic := Bool.eq_false_iff.mpr hdyn
  obtain ⟨hpos, rest, hdrop⟩ := found_inline hfound hstatic
  have hlen : 32 ≤ (encode t v).length := by
    rw [encode_length hwf h hstatic]
    exact typeSize_pos hwf
  have hsplit : b.drop pos = (encode t v).take 32 ++ ((encode t v).drop 32 ++ rest) := by
    rw [hdrop, ← append_assoc, take_append_drop]
  exact ⟨pos, (encode t v).take 32, firstWord_eq hpos hsplit (by simp [hlen]) hmax,
    by rw [if_neg hdyn], hpos, rest, hdrop⟩

theorem virtualArgsOf_eq (hwf : t.WellFormed) (hlt : typeSize t < 2 ^ 63) :
    32 * (virtualArgsOf t + 1) = typeSize t := by
  have hdvd := typeSize_dvd t
  rw [virtualArgsOf]
  split
  · rw [getTypeSize_eq hwf hlt, Int.tdiv_eq_ediv_of_nonneg (by positivity)]
    omega
  next h =>
  have h32 : typeSize t = 32 := by
    by_cases hdyn : isDynamicType t = true
    · exact typeSize_dynamic hdyn
    · exact typeSize_of_not_nests (by simpa [hdyn] using h)
  rw [h32]
  rfl

mutual
/-- `toGoType` reads a value where it can be found. -/
theorem toGoType_found : ∀ {t : Ty} {v : Value}, t.WellFormed → t.buildable = true → HasType t v →
    ∀ {b : Bytes} {pos : Nat}, b.length ≤ maxAlloc → Found word b pos (part t v) →
    toGoType t pos b = .ok v
  | .int size, v, hwf, _, h, b, pos, hmax, hfound => by
    have hword := found_firstWord hfound hwf h rfl rfl hmax
    rw [HasType] at h
    rw [Ty.WellFormed] at hwf
    obtain ⟨n, rfl, hlo, hhi⟩ := h
    rw [toGoType, hword]
    exact readInt_eq hwf.1 hwf.2 hlo hhi
  | .uint size, v, hwf, _, h, b, pos, hmax, hfound => by
    have hword := found_firstWord hfound hwf h rfl rfl hmax
    rw [HasType] at h
    rw [Ty.WellFormed] at hwf
    obtain ⟨n, rfl, hlo, hhi⟩ := h
    rw [toGoType, hword]
    exact readUint_eq hwf.2 hlo hhi
  | .bool, v, hwf, _, h, b, pos, hmax, hfound => by
    have hword := found_firstWord hfound hwf h rfl rfl hmax
    rw [HasType] at h
    obtain ⟨x, rfl⟩ := h
    rw [toGoType, hword]
    exact readBool_eq x
  | .address, v, hwf, _, h, b, pos, hmax, hfound => by
    have hword := found_firstWord hfound hwf h rfl rfl hmax
    rw [HasType] at h
    obtain ⟨x, rfl, hx⟩ := h
    rw [toGoType, hword]
    exact congrArg (Except.ok ∘ Value.fixed) (setBytes_leftPadBytes hx)
  | .fixedBytes n, v, hwf, _, h, b, pos, hmax, hfound => by
    have hword := found_firstWord hfound hwf h rfl rfl hmax
    rw [HasType] at h
    obtain ⟨x, rfl, rfl⟩ := h
    rw [toGoType, hword]
    exact congrArg (Except.ok ∘ Value.fixed) (rightPadBytes_take x 32)
  | .function, v, hwf, _, h, b, pos, hmax, hfound => by
    have hword := found_firstWord hfound hwf h rfl rfl hmax
    rw [HasType] at h
    obtain ⟨x, rfl, hx⟩ := h
    rw [toGoType, hword]
    exact readFunctionType_eq hx
  | .string, v, hwf, _, h, b, pos, hmax, hfound => by
    rw [HasType] at h
    obtain ⟨s, rfl⟩ := h
    obtain ⟨start, hpoints, hsub⟩ := found_bytes hfound rfl rfl hmax
    rw [toGoType, hpoints, ok_bind]
    exact congrArg (· >>= fun x => .ok (Value.string x)) hsub
  | .bytes, v, hwf, _, h, b, pos, hmax, hfound => by
    rw [HasType] at h
    obtain ⟨s, rfl⟩ := h
    obtain ⟨start, hpoints, hsub⟩ := found_bytes hfound rfl rfl hmax
    rw [toGoType, hpoints, ok_bind]
    exact congrArg (· >>= fun x => .ok (Value.bytes x)) hsub
  | .slice elem, v, hwf, hbuild, h, b, pos, hmax, hfound => by
    rw [HasType] at h
    rw [Ty.WellFormed] at hwf
    obtain ⟨vs, rfl, hvs⟩ := h
    obtain ⟨off, rest, hpos, hdrop, hoff, rest', hbody⟩ := found_pointed hfound rfl
    rw [encode, append_assoc, Value.elems] at hbody
    have hoff32 := drop_length_le hoff hbody
    rw [word_length] at hoff32
    have hinner : b.drop (off + 32) = layout 32 word (vs.map (part elem)) ++ rest' := by
      rw [← drop_drop, hbody]
      exact drop_left' (word_length _)
    have hshort : (b.drop (off + 32)).length ≤ maxAlloc := drop_short hmax
    have hend : off + 32 + vs.length ≤ b.length := by
      have hle := drop_length_le hoff32 hinner
      have hcount := length_le_layout hwf hvs
      omega
    have hvals := forEachUnpack_layout (t := .slice elem)
      (fun i => toGoType elem i (b.drop (off + 32))) hbuild hwf hshort hvs
      (fun x hx i hi => toGoType_found hwf hbuild (hvs x hx) hshort hi) hinner
    rw [toGoType, lengthPrefix_eq hpos hdrop hoff hbody hend hmax, ok_bind]
    dsimp only
    rw [sliceFrom_eq hoff32, ok_bind, hvals, ok_bind]
    rfl
  | .array n elem, v, hwf, hbuild, h, b, pos, hmax, hfound => by
    have hbuild' := hbuild
    rw [Ty.buildable, Bool.and_eq_true] at hbuild'
    obtain ⟨start, w, hword, hstart, hoff, rest, hdrop⟩ := found_start hwf h hfound hmax
    rw [HasType] at h
    rw [Ty.WellFormed] at hwf
    obtain ⟨vs, rfl, rfl, hvs⟩ := h
    rw [isDynamicType] at hstart
    have hstart' : arrayStart elem pos w = (start : Int) := by
      rw [arrayStart]
      split at hstart
      · rename_i hdyn
        rw [if_pos hdyn, hstart.2]
      · rename_i hdyn
        rw [if_neg hdyn, hstart]
    have hwithin : ¬(isDynamicType elem = true ∧ arrayStart elem pos w > b.length) := by
      rw [hstart']
      omega
    rw [encode] at hdrop
    have hshort : (b.drop start).length ≤ maxAlloc := drop_short hmax
    have hvals := forEachUnpack_layout (t := .array vs.length elem)
      (fun i => toGoType elem i (b.drop start)) hbuild hwf.2.2 hshort hvs
      (fun x hx i hi => toGoType_found hwf.2.2 hbuild'.1 (hvs x hx) hshort hi) hdrop
    rw [toGoType, hword, ok_bind, if_neg hwithin, hstart', sliceFrom_eq hoff, ok_bind,
      hvals, ok_bind]
    rfl
  | .tuple rawNames elems, v, hwf, hbuild, h, b, pos, hmax, hfound => by
    obtain ⟨start, w, hword, hstart, hoff, rest, hdrop⟩ := found_start hwf h hfound hmax
    rw [HasType] at h
    rw [Ty.WellFormed] at hwf
    obtain ⟨vs, rfl, hvs⟩ := h
    rw [isDynamicType] at hstart
    have hstart' : tupleStart elems pos b = .ok (start : Int) := by
      rw [tupleStart]
      split at hstart
      · rename_i hdyn
        rw [if_pos hdyn, hstart.1]
        rfl
      · rename_i hdyn
        rw [if_neg hdyn, hstart]
    rw [encode] at hdrop
    have hshort : (b.drop start).length ≤ maxAlloc := drop_short hmax
    have hvals := unpackFields_found (b := b.drop start) hwf.2.2.2.2 hvs 0 0 0 hshort (Int.le_refl 0) (Int.le_refl 0) rfl
      (hdrop ▸ foundAll_layout word_length _ _)
    rw [toGoType, hword, ok_bind, hstart', ok_bind, sliceFrom_eq hoff, ok_bind, hvals]
    rfl

theorem unpackFields_found : ∀ {ts : List Ty} {vs : List Value}, AllWellFormed ts →
    HaveTypes ts vs → ∀ {b : Bytes} (pos : Nat) (index virtualArgs : Int), b.length ≤ maxAlloc →
    0 ≤ index → 0 ≤ virtualArgs → (index + virtualArgs) * 32 = pos →
    FoundAll 32 word b pos (encodeFields ts vs) → unpackFields ts index virtualArgs b = .ok vs
  | [], [], _, _, _, _, _, _, _, _, _, _, _ => rfl
  | t :: ts, v :: vs, hwf, h, b, pos, index, virtualArgs, hmax, hindex, hvirt, hposeq, hfound => by
    rw [AllWellFormed] at hwf
    rw [HaveTypes] at h
    rw [encodeFields] at hfound
    have hle := hfound.1.le word_length
    have hwidth := part_width hwf.1 h.1
    rw [show (⟨isDynamicType t, encode t v⟩ : Piece UInt8) = part t v from rfl] at hfound hle
    rw [hwidth] at hle
    have hsmall : typeSize t < 2 ^ 63 ∧ pos + typeSize t ≤ 2 ^ 48 := by
      rw [maxAlloc] at hmax
      omega
    have hwords := virtualArgsOf_eq hwf.1 hsmall.1
    have hpos32 := typeSize_pos hwf.1
    have hpos : int64 ((index + virtualArgs) * 32) = (pos : Int) := by
      rw [hposeq, int64_of_lt (by positivity) (by omega)]
    have hvirt' : int64 (virtualArgs + virtualArgsOf t) = virtualArgs + virtualArgsOf t :=
      int64_of_lt (by omega) (by omega)
    have hv := toGoType_found hwf.1 hwf.2.1 h.1 hmax hfound.1
    have hrest := unpackFields_found hwf.2.2 h.2 (pos + typeSize t) (index + 1)
      (virtualArgs + virtualArgsOf t) hmax (by omega) (by omega) (by push_cast; omega)
      (hwidth ▸ hfound.2)
    rw [unpackFields, hpos, hv, hvirt']
    show (unpackFields ts (index + 1) (virtualArgs + virtualArgsOf t) b >>= fun rest =>
      .ok (v :: rest)) = _
    rw [hrest]
    rfl
  | [], _ :: _, _, h, _, _, _, _, _, _, _, _, _ => by simp [HaveTypes] at h
  | _ :: _, [], _, h, _, _, _, _, _, _, _, _, _ => by simp [HaveTypes] at h
end

end GoEthereum.Abi

import GoEthereum.Common
import GoEthereum.Lib.Radix.Tree

/-!
# Key encodings of the trie

`trie/encoding.go`. A key is kept as its nibbles followed by the terminator 16
(hex encoding) in memory, and in compact encoding, two nibbles a byte behind a
flag, on disk. A nibble of a hex key is one of the 17 values that index the slots
of a full node.
-/

namespace GoEthereum.Trie

open List

open Radix (Terminated Word)

/-- A value of a hex key: 0 to 15, or the terminator. -/
abbrev Nibble : Type := Fin 17

instance neZero_nibbles : NeZero 17 := ⟨by decide⟩

/-- A hex key, or the path of a node from the root. -/
abbrev Path : Type := List Nibble

/-- The terminator. -/
def term : Nibble := 16

def nibbleHi (b : UInt8) : Nibble :=
  ⟨b.toNat / 16, by have := b.toNat_lt; omega⟩

def nibbleLo (b : UInt8) : Nibble := ⟨b.toNat % 16, by omega⟩

def nibbles (str : Bytes) : Path := str.flatMap fun b => [nibbleHi b, nibbleLo b]

def keybytesToHex (str : Bytes) : Path := nibbles str ++ [term]

def hasTerm (s : Path) : Bool := decide (s.getLast? = some term)

/-- `a<<4 | b`. -/
def packNibbles (a b : Nibble) : UInt8 := (UInt8.ofNat a.val <<< 4) ||| UInt8.ofNat b.val

/-- `decodeNibbles`, on an even number of nibbles. -/
def decodeNibbles : Path → Bytes
  | a :: b :: rest => packNibbles a b :: decodeNibbles rest
  | _ => []

/-- The flag byte of `hexToCompact` and the nibbles packed behind it. -/
def compactBody (terminator : UInt8) (hex : Path) : Bytes :=
  if hex.length % 2 = 1 then
    match hex with
    | [] => []
    | a :: rest =>
      ((terminator <<< 5) ||| ((1 : UInt8) <<< 4) ||| UInt8.ofNat a.val) :: decodeNibbles rest
  else (terminator <<< 5) :: decodeNibbles hex

def hexToCompact (hex : Path) : Bytes :=
  if hasTerm hex then compactBody 1 hex.dropLast else compactBody 0 hex

def compactToHex (compact : Bytes) : Path :=
  match keybytesToHex compact with
  | [] => []
  | flag :: rest =>
    if compact.isEmpty then []
    else
      let base := flag :: rest
      let base := if flag.val < 2 then base.dropLast else base
      base.drop (2 - flag.val % 2)

/-! ## Hex keys -/

theorem nibbleHi_ne_term (b : UInt8) : nibbleHi b ≠ term := by
  intro h
  have := b.toNat_lt
  have := congrArg Fin.val h
  simp only [nibbleHi, term] at this
  omega

theorem nibbleLo_ne_term (b : UInt8) : nibbleLo b ≠ term := by
  intro h
  have := congrArg Fin.val h
  simp only [nibbleLo, term] at this
  omega

theorem term_not_mem_nibbles (str : Bytes) : term ∉ nibbles str := by
  unfold nibbles
  rw [mem_flatMap]
  rintro ⟨b, -, h⟩
  rcases mem_cons.mp h with h | h
  · exact nibbleHi_ne_term b h.symm
  · exact nibbleLo_ne_term b (mem_singleton.mp h).symm

theorem terminated_keybytesToHex (str : Bytes) : Terminated term (keybytesToHex str) :=
  ⟨nibbles str, rfl, term_not_mem_nibbles str⟩

theorem length_nibbles (str : Bytes) : (nibbles str).length = 2 * str.length := by
  induction str with
  | nil => rfl
  | cons b str ih =>
    show (nibbles str).length + 2 = 2 * (str.length + 1)
    rw [ih]
    omega

theorem length_keybytesToHex (str : Bytes) : (keybytesToHex str).length = 2 * str.length + 1 := by
  rw [keybytesToHex, length_append, length_nibbles, length_singleton]

/-- A byte is its two nibbles. -/
theorem byte_of_nibbles {a b : UInt8} (hhi : nibbleHi a = nibbleHi b)
    (hlo : nibbleLo a = nibbleLo b) : a = b := by
  have h₁ := congrArg Fin.val hhi
  have h₂ := congrArg Fin.val hlo
  simp only [nibbleHi, nibbleLo] at h₁ h₂
  apply UInt8.toNat_inj.mp
  omega

theorem nibbles_injective : Function.Injective nibbles := by
  intro a
  induction a with
  | nil =>
    intro b h
    cases b with
    | nil => rfl
    | cons y b => cases h
  | cons x a ih =>
    intro b h
    cases b with
    | nil => cases h
    | cons y b =>
      have h' : nibbleHi x :: nibbleLo x :: nibbles a = nibbleHi y :: nibbleLo y :: nibbles b := h
      rw [cons.injEq, cons.injEq] at h'
      rw [byte_of_nibbles h'.1 h'.2.1, ih h'.2.2]

theorem keybytesToHex_injective : Function.Injective keybytesToHex := by
  intro a b h
  exact nibbles_injective (append_cancel_right h)

/-! ## The compact encoding -/

theorem nibbles_packNibbles : ∀ a b : Nibble, a ≠ term → b ≠ term →
    nibbleHi (packNibbles a b) = a ∧ nibbleLo (packNibbles a b) = b := by
  decide +kernel

theorem nibbles_decodeNibbles : ∀ {hex : Path}, term ∉ hex → hex.length % 2 = 0 →
    nibbles (decodeNibbles hex) = hex
  | [], _, _ => rfl
  | [_], _, h => by cases h
  | a :: b :: rest, hmem, h => by
    rw [mem_cons, not_or, mem_cons, not_or] at hmem
    obtain ⟨ha, hb⟩ := nibbles_packNibbles a b (Ne.symm hmem.1) (Ne.symm hmem.2.1)
    have hrest : rest.length % 2 = 0 := by
      rw [length_cons, length_cons] at h
      omega
    show nibbleHi (packNibbles a b) :: nibbleLo (packNibbles a b) ::
      nibbles (decodeNibbles rest) = _
    rw [ha, hb, nibbles_decodeNibbles hmem.2.2 hrest]

theorem flag_even : ∀ terminator ∈ [(0 : UInt8), 1],
    (nibbleHi (terminator <<< 5)).val = 2 * terminator.toNat := by
  decide +kernel

theorem flag_odd : ∀ a : Nibble, a ≠ term → ∀ terminator ∈ [(0 : UInt8), 1],
    (nibbleHi ((terminator <<< 5) ||| ((1 : UInt8) <<< 4) ||| UInt8.ofNat a.val)).val =
        2 * terminator.toNat + 1 ∧
      nibbleLo ((terminator <<< 5) ||| ((1 : UInt8) <<< 4) ||| UInt8.ofNat a.val) = a := by
  decide +kernel

/-- What `compactToHex` makes of a flag byte and a body. -/
theorem compactToHex_cons (flag : UInt8) (body : Bytes) : compactToHex (flag :: body) =
      (if (nibbleHi flag).val < 2 then nibbleHi flag :: nibbleLo flag :: nibbles body
        else nibbleHi flag :: nibbleLo flag :: (nibbles body ++ [term])).drop
          (2 - (nibbleHi flag).val % 2) := by
  have hbase : keybytesToHex (flag :: body) =
      nibbleHi flag :: (nibbleLo flag :: nibbles body ++ [term]) := rfl
  have hlast : (nibbleHi flag :: (nibbleLo flag :: nibbles body ++ [term])).dropLast =
      nibbleHi flag :: nibbleLo flag :: nibbles body := by
    show ((nibbleHi flag :: nibbleLo flag :: nibbles body) ++ [term]).dropLast = _
    rw [dropLast_concat]
  unfold compactToHex
  rw [hbase]
  simp only [isEmpty_cons, Bool.false_eq_true, if_false, hlast]
  rfl

theorem compactToHex_compactBody {terminator : UInt8} (ht : terminator ∈ [(0 : UInt8), 1])
    {hex : Path} (hmem : term ∉ hex) :
    compactToHex (compactBody terminator hex) = hex ++ (if terminator = 1 then [term] else []) := by
  have hbit : terminator = 0 ∨ terminator = 1 := by simpa using ht
  unfold compactBody
  by_cases hodd : hex.length % 2 = 1
  · rw [if_pos hodd]
    cases hex with
    | nil => cases hodd
    | cons a rest =>
      rw [mem_cons, not_or] at hmem
      obtain ⟨hhi, hlo⟩ := flag_odd a (Ne.symm hmem.1) terminator ht
      have hrest : rest.length % 2 = 0 := by
        rw [length_cons] at hodd
        omega
      simp only [compactToHex_cons, hhi, hlo, nibbles_decodeNibbles hmem.2 hrest]
      rcases hbit with rfl | rfl
      · simp
      · simp
  · rw [if_neg hodd, compactToHex_cons, flag_even terminator ht,
      nibbles_decodeNibbles hmem (by omega)]
    rcases hbit with rfl | rfl
    · simp
    · simp

theorem hasTerm_append_term (q : Path) : hasTerm (q ++ [term]) = true := by
  simp [hasTerm]

theorem hasTerm_of_not_mem {q : Path} (h : term ∉ q) : hasTerm q = false := by
  unfold hasTerm
  rw [decide_eq_false_iff_not]
  intro hlast
  exact h (mem_of_getLast? hlast)

theorem hasTerm_iff {k : Path} (h : Word term k) : hasTerm k = true ↔ Terminated term k := by
  constructor
  · intro ht
    rcases h with h | h
    · exact h
    · rw [hasTerm_of_not_mem h] at ht
      cases ht
  · rintro ⟨q, rfl, -⟩
    exact hasTerm_append_term q

/-- The compact encoding is undone on every word of a short node. -/
theorem compactToHex_hexToCompact {k : Path} (h : Word term k) :
    compactToHex (hexToCompact k) = k := by
  unfold hexToCompact
  rcases h with ⟨q, rfl, hq⟩ | h
  · rw [if_pos (hasTerm_append_term q), dropLast_concat,
      compactToHex_compactBody (by simp) hq, if_pos rfl]
  · rw [hasTerm_of_not_mem h, if_neg Bool.false_ne_true,
      compactToHex_compactBody (by simp) h, if_neg (by decide), append_nil]

theorem length_decodeNibbles : ∀ hex : Path, (decodeNibbles hex).length = hex.length / 2
  | [] => rfl
  | [_] => by simp [decodeNibbles]
  | a :: b :: rest => by
    show (decodeNibbles rest).length + 1 = (rest.length + 2) / 2
    rw [length_decodeNibbles rest]
    omega

theorem length_compactBody (terminator : UInt8) (hex : Path) :
    (compactBody terminator hex).length = hex.length / 2 + 1 := by
  unfold compactBody
  by_cases hodd : hex.length % 2 = 1
  · rw [if_pos hodd]
    cases hex with
    | nil => cases hodd
    | cons a rest =>
      rw [length_cons] at hodd ⊢
      rw [length_decodeNibbles, length_cons]
      omega
  · rw [if_neg hodd, length_cons, length_decodeNibbles]

theorem length_hexToCompact_le (k : Path) : (hexToCompact k).length ≤ k.length / 2 + 1 := by
  unfold hexToCompact
  split
  · rw [length_compactBody, length_dropLast]
    omega
  · rw [length_compactBody]

/-! ## The compact encoding in place -/

/-- A nibble as the byte that holds it. -/
def nibbleByte (d : Nibble) : UInt8 := UInt8.ofNat d.val

/-- The loop of `hexToCompactInPlace`, for the rounds that are left. -/
def compactLoop : Nat → Bytes → Nat → Nat → Bytes
  | 0, hex, _, _ => hex
  | rounds + 1, hex, bi, ni =>
    compactLoop rounds (hex.set bi ((hex.getD ni 0 <<< 4) ||| hex.getD (ni + 1) 0))
      (bi + 1) (ni + 2)

/-- `hexToCompactInPlace` once the terminator has been looked for. -/
def compactInPlace (firstByte : UInt8) (hexLen : Nat) (hex : Bytes) : Bytes :=
  if hexLen % 2 = 1 then
    ((compactLoop ((hexLen - 1 + 1) / 2) hex 1 1).set 0
      (firstByte ||| ((1 : UInt8) <<< 4) ||| hex.getD 0 0)).take (hexLen / 2 + 1)
  else ((compactLoop ((hexLen + 1) / 2) hex 1 0).set 0 firstByte).take (hexLen / 2 + 1)

/-- `hexToCompactInPlace`, on a buffer with one nibble a byte. -/
def hexToCompactInPlace (hex : Bytes) : Bytes :=
  if hex.getLast? = some 16 then compactInPlace ((1 : UInt8) <<< 5) (hex.length - 1) hex
  else compactInPlace 0 hex.length hex

/-- The loop never overwrites what it still has to read: `bi` is behind `ni`. -/
theorem take_compactLoop (rounds : Nat) : ∀ (hex : Bytes) (bi ni : Nat), bi ≤ ni + 1 →
    bi + rounds ≤ hex.length →
    (compactLoop rounds hex bi ni).take (bi + rounds) =
      hex.take bi ++ (range rounds).map fun j =>
        (hex.getD (ni + 2 * j) 0 <<< 4) ||| hex.getD (ni + 2 * j + 1) 0 := by
  induction rounds with
  | zero =>
    intro hex bi ni _ _
    simp [compactLoop]
  | succ rounds ih =>
    intro hex bi ni hle hlen
    have hread : ∀ (x : UInt8) (i : Nat), bi < i → (hex.set bi x).getD i 0 = hex.getD i 0 := by
      intro x i hi
      rw [getD_eq_getElem?_getD, getD_eq_getElem?_getD, getElem?_set_ne (by omega)]
    have htake : ∀ x : UInt8, (hex.set bi x).take (bi + 1) = hex.take bi ++ [x] := by
      intro x
      rw [take_add_one, take_set, getElem?_set_self (by omega),
        set_eq_of_length_le (by rw [length_take]; omega)]
      rfl
    rw [compactLoop, ← Nat.add_assoc, Nat.add_right_comm, ih _ _ _ (by omega)
      (by rw [length_set]; omega), htake, append_assoc, range_succ_eq_map,
      map_cons, map_map, singleton_append]
    refine congrArg (hex.take bi ++ ·) (congrArg₂ cons rfl ?_)
    refine map_congr_left fun j _ => ?_
    rw [hread _ _ (by omega), hread _ _ (by omega)]
    show _ = (hex.getD (ni + 2 * (j + 1)) 0 <<< 4) ||| hex.getD (ni + 2 * (j + 1) + 1) 0
    rw [show ni + 2 * (j + 1) = ni + 2 + 2 * j by omega]

theorem decodeNibbles_eq_map : ∀ k : Path, decodeNibbles k =
    (range (k.length / 2)).map fun j =>
      (nibbleByte (k.getD (2 * j) 0) <<< 4) ||| nibbleByte (k.getD (2 * j + 1) 0)
  | [] => rfl
  | [_] => by simp [decodeNibbles]
  | a :: b :: rest => by
    have hlen : (a :: b :: rest).length / 2 = rest.length / 2 + 1 := by
      rw [length_cons, length_cons]
      omega
    rw [hlen, range_succ_eq_map, map_cons, map_map, decodeNibbles, decodeNibbles_eq_map rest]
    rfl

/-- The bytes behind the flag. -/
theorem map_compactLoop (skip : Nat) (body tail : Path) (hlen : skip ≤ body.length) :
    ((range ((body.length - skip) / 2)).map fun j =>
      ((((body ++ tail).map nibbleByte).getD (skip + 2 * j) 0) <<< 4) |||
        ((body ++ tail).map nibbleByte).getD (skip + 2 * j + 1) 0) =
      decodeNibbles (body.drop skip) := by
  have hget : ∀ i, i < body.length - skip → ((body ++ tail).map nibbleByte).getD (skip + i) 0 =
        nibbleByte ((body.drop skip).getD i 0) := by
    intro i hi
    rw [getD_eq_getElem?_getD, getD_eq_getElem?_getD, getElem?_map,
      getElem?_drop, getElem?_append_left (by omega),
      getElem?_eq_getElem (by omega)]
    rfl
  rw [decodeNibbles_eq_map, length_drop]
  refine map_congr_left fun j hj => ?_
  rw [mem_range] at hj
  rw [hget (2 * j) (by omega), Nat.add_assoc, hget (2 * j + 1) (by omega)]

theorem compactInPlace_eq (terminator : UInt8) (body tail : Path) (hne : body ++ tail ≠ []) :
    compactInPlace (terminator <<< 5) body.length ((body ++ tail).map nibbleByte) =
      compactBody terminator body := by
  have hpos : 0 < (body ++ tail).length := length_pos_iff.mpr hne
  have hlength : ((body ++ tail).map nibbleByte).length = body.length + tail.length := by
    rw [length_map, length_append]
  have hset : ∀ (first : UInt8) (rest : Bytes),
      (((body ++ tail).map nibbleByte).take 1 ++ rest).set 0 first = first :: rest := by
    intro first rest
    cases hb : body ++ tail with
    | nil => exact absurd hb hne
    | cons a l => rfl
  rw [length_append] at hpos
  unfold compactInPlace compactBody
  by_cases hodd : body.length % 2 = 1
  · rw [if_pos hodd, if_pos hodd]
    cases body with
    | nil => cases hodd
    | cons a rest =>
      rw [length_cons] at hodd hlength ⊢
      have hrounds : (rest.length + 1 - 1 + 1) / 2 = rest.length / 2 := by omega
      have hhalf : (rest.length + 1) / 2 + 1 = 1 + rest.length / 2 := by omega
      have hbody := map_compactLoop 1 (a :: rest) tail (by simp)
      rw [length_cons, Nat.add_sub_cancel, drop_one, tail_cons] at hbody
      rw [hrounds, hhalf, take_set, take_compactLoop _ _ _ _ (by omega)
        (by rw [hlength]; omega), hset, hbody]
      rfl
  · rw [if_neg hodd, if_neg hodd]
    have hrounds : (body.length + 1) / 2 = body.length / 2 := by omega
    have hbody := map_compactLoop 0 body tail (Nat.zero_le body.length)
    simp only [Nat.zero_add, Nat.sub_zero, drop_zero] at hbody
    rw [hrounds, Nat.add_comm, take_set, take_compactLoop _ _ _ _ (by omega)
      (by rw [hlength]; omega), hset]
    simp only [Nat.zero_add]
    rw [hbody]

/-- On the word of a short node it is the compact encoding. -/
theorem hexToCompactInPlace_eq {k : Path} (hk : k ≠ []) :
    hexToCompactInPlace (k.map nibbleByte) = hexToCompact k := by
  have hbyte : ∀ d : Nibble, nibbleByte d = 16 ↔ d = term := by decide +kernel
  have hterm : ((k.map nibbleByte).getLast? = some 16) ↔ hasTerm k = true := by
    rw [getLast?_map, Option.map_eq_some_iff, hasTerm, decide_eq_true_iff]
    constructor
    · rintro ⟨d, hd, h16⟩
      rw [hd, (hbyte d).mp h16]
    · intro h
      exact ⟨term, h, rfl⟩
  unfold hexToCompactInPlace hexToCompact
  by_cases h : hasTerm k = true
  · rw [if_pos (hterm.mpr h), if_pos h]
    have hsplit := dropLast_append_getLast hk
    have h' := compactInPlace_eq 1 k.dropLast [k.getLast hk] (by rw [hsplit]; exact hk)
    rw [hsplit, length_dropLast] at h'
    rw [length_map]
    exact h'
  · rw [if_neg (fun h' => h (hterm.mp h')), if_neg h, length_map]
    have h' := compactInPlace_eq 0 k [] (by rw [append_nil]; exact hk)
    rw [append_nil] at h'
    exact h'

/-! ## Keys without a terminator -/

/-- `writeHexKey`; there is no room for an empty key, which is an index out of range. -/
def writeHexKey (key : Bytes) : Option Path :=
  if key.isEmpty then none else some (nibbles key)

/-- `hexToKeybytes`; an odd length is a panic. -/
def hexToKeybytes (hex : Path) : Option Bytes :=
  let hex := if hasTerm hex then hex.dropLast else hex
  if hex.length % 2 ≠ 0 then none else some (decodeNibbles hex)

theorem hexToKeybytes_keybytesToHex (k : Bytes) : hexToKeybytes (keybytesToHex k) = some k := by
  have heven : (nibbles k).length % 2 = 0 := by
    rw [length_nibbles]
    omega
  have hdecode : decodeNibbles (nibbles k) = k :=
    nibbles_injective (nibbles_decodeNibbles (term_not_mem_nibbles k) heven)
  rw [hexToKeybytes, keybytesToHex, if_pos (hasTerm_append_term _), dropLast_concat,
    if_neg (not_not.mpr heven), hdecode]

/-- The codings are inverse to each other, and both ways of writing one agree, but for the key
that `writeHexKey` has no room for. -/
theorem key_codings_iff {h : Path} (hh : Word term h) (k : Bytes) :
    (compactToHex (hexToCompact h) = h ∧
      (h ≠ [] → hexToCompactInPlace (h.map nibbleByte) = hexToCompact h) ∧
      hexToKeybytes (keybytesToHex k) = some k ∧
      writeHexKey k = some (keybytesToHex k).dropLast) ↔ k ≠ [] := by
  constructor
  · rintro ⟨-, -, -, hwrite⟩ rfl
    cases hwrite
  · intro hk
    refine ⟨compactToHex_hexToCompact hh, hexToCompactInPlace_eq, hexToKeybytes_keybytesToHex k, ?_⟩
    rw [writeHexKey, if_neg (by simpa using hk), keybytesToHex, dropLast_concat]

theorem key_codings_iff_leaf : hexToCompactInPlace ([1, 2, term].map nibbleByte) = [0x20, 0x12] ∧
    writeHexKey [0x12] = some [1, 2] := by
  have hword : Word term [1, 2, term] := .inl ⟨[1, 2], rfl, by decide⟩
  obtain ⟨-, hplace, -, hwrite⟩ := (key_codings_iff hword [0x12]).mpr (by rintro ⟨⟩)
  exact ⟨hplace (by rintro ⟨⟩), hwrite⟩

theorem writeHexKey_empty : writeHexKey [] ≠ some (keybytesToHex []).dropLast := by
  rintro ⟨⟩

end GoEthereum.Trie

import GoEthereum.Lib.Radix.Order
import GoEthereum.Trie.Encoding

/-!
# The order of keys

`bytes.Compare` on byte strings and on hex keys. Without the terminator both orders are
the same. With it they differ on keys of which one starts with the other: the shorter
one comes first as a byte string and last as a hex key, since the terminator is the
greatest nibble.
-/

namespace GoEthereum.Trie

open List

variable {a b : Bytes}

theorem nibbles_cons (b : UInt8) (str : Bytes) :
    nibbles (b :: str) = nibbleHi b :: nibbleLo b :: nibbles str := rfl

theorem nibbles_lt_iff : nibbles a < nibbles b ↔ a < b := by
  induction a generalizing b with
  | nil =>
    cases b with
    | nil => exact iff_of_false (not_lt_nil _) (not_lt_nil _)
    | cons y b => exact iff_of_true (nil_lt_cons _ _) (nil_lt_cons _ _)
  | cons x a ih =>
    cases b with
    | nil => exact iff_of_false (not_lt_nil _) (not_lt_nil _)
    | cons y b =>
      have hbyte : x < y ↔ nibbleHi x < nibbleHi y ∨
          (nibbleHi x = nibbleHi y ∧ nibbleLo x < nibbleLo y) := by
        rw [UInt8.lt_iff_toNat_lt, Fin.lt_def, Fin.lt_def, Fin.ext_iff]
        simp only [nibbleHi, nibbleLo]
        omega
      have heq : x = y ↔ nibbleHi x = nibbleHi y ∧ nibbleLo x = nibbleLo y := by
        constructor
        · rintro rfl
          exact ⟨rfl, rfl⟩
        · rintro ⟨hhi, hlo⟩
          exact byte_of_nibbles hhi hlo
      rw [nibbles_cons, nibbles_cons, cons_lt_cons_iff, cons_lt_cons_iff,
        cons_lt_cons_iff, ih, hbyte, heq]
      tauto

theorem nibbles_prefix_iff : nibbles a <+: nibbles b ↔ a <+: b := by
  induction a generalizing b with
  | nil => exact iff_of_true nil_prefix nil_prefix
  | cons x a ih =>
    cases b with
    | nil =>
      refine iff_of_false (fun h => ?_) (fun h => ?_)
      · exact absurd (prefix_nil.mp h) (cons_ne_nil _ _)
      · exact absurd (prefix_nil.mp h) (cons_ne_nil _ _)
    | cons y b =>
      rw [nibbles_cons, nibbles_cons, cons_prefix_cons, cons_prefix_cons,
        cons_prefix_cons, ih]
      constructor
      · rintro ⟨hhi, hlo, h⟩
        exact ⟨byte_of_nibbles hhi hlo, h⟩
      · rintro ⟨rfl, h⟩
        exact ⟨rfl, rfl, h⟩

theorem before_nibbles_iff : Radix.Before (nibbles a) (nibbles b) ↔ a < b ∧ ¬ a <+: b := by
  rw [Radix.Before, nibbles_lt_iff, nibbles_prefix_iff]

theorem hex_lt_of_lt (h : a < b) (hp : ¬ a <+: b) : keybytesToHex a < keybytesToHex b :=
  (before_nibbles_iff.mpr ⟨h, hp⟩).append [term] [term]

theorem bytes_lt_trichotomy (a b : Bytes) : a < b ∨ a = b ∨ b < a := by
  rcases lt_trichotomy (nibbles a) (nibbles b) with h | h | h
  · exact .inl (nibbles_lt_iff.mp h)
  · exact .inr (.inl (nibbles_injective h))
  · exact .inr (.inr (nibbles_lt_iff.mp h))

theorem bytes_lt_asymm (h : a < b) : ¬ b < a := by
  intro h'
  exact lt_asymm (nibbles_lt_iff.mpr h) (nibbles_lt_iff.mpr h')

theorem not_isPrefix_of_length (hlen : a.length = b.length) (h : a < b) : ¬ a <+: b := by
  intro hp
  rw [hp.eq_of_length hlen] at h
  exact bytes_lt_asymm h h

/-- The orders agree on keys of one length. -/
theorem hex_lt_iff (hlen : a.length = b.length) : keybytesToHex a < keybytesToHex b ↔ a < b := by
  constructor
  · intro h
    rcases bytes_lt_trichotomy a b with hlt | rfl | hgt
    · exact hlt
    · exact absurd h (lt_irrefl _)
    · exact absurd h (lt_asymm (hex_lt_of_lt hgt (not_isPrefix_of_length hlen.symm hgt)))
  · exact fun h => hex_lt_of_lt h (not_isPrefix_of_length hlen h)

end GoEthereum.Trie

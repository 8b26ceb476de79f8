import GoEthereum.Rlp.Stream

/-!
# The decoder accepts canonical encodings

Every read of the stream takes bytes off the input and off the limits. A header that is
read is the one the encoder writes for the size; a value that is decoded is preceded by
its encoding. The limit of a list can wrap around below zero when an inner list claims
more than is left, but then the list does not end before the input does.
-/

namespace GoEthereum.Rlp

open List

/-- The input that may be read. -/
def Stream.visible (s : Stream) : GoEthereum.Bytes := if s.limited then s.r.take s.remaining else s.r

/-- The stream with the visible input, and its length as the limit. -/
def Stream.bounded (s : Stream) : Stream :=
  { s with r := s.visible, remaining := s.visible.length, limited := true }

variable {head rest : Bytes} {k : Kind} {items : List Value} {m n size : Nat} {s s' : Stream}
  {e : StreamErr} {b : UInt8} {v : Value}

/-! ## Integers without leading zeros -/

theorem intBytes_beNat (b : Bytes) : ∀ {fuel : Nat}, b.length ≤ fuel → b.head? ≠ some 0 →
    intBytes fuel (beNat b) = b := by
  induction b using reverseRecOn with
  | nil =>
    intro fuel _ _
    cases fuel with
    | zero => rfl
    | succ fuel => rfl
  | append_singleton b x ih =>
    intro fuel hlen hhead
    rw [length_append, length_singleton] at hlen
    obtain ⟨fuel, rfl⟩ : ∃ m, fuel = m + 1 := ⟨fuel - 1, by omega⟩
    have hval : beNat (b ++ [x]) = beNat b * 256 + x.toNat := by
      rw [beNat_append, length_singleton, pow_one, beNat_singleton]
    have hx : x.toNat < 256 := x.toNat_lt
    have hb : b.head? ≠ some 0 := by
      cases b with
      | nil => rintro ⟨⟩
      | cons y b => exact hhead
    have hne : beNat (b ++ [x]) ≠ 0 := by
      intro hzero
      cases b with
      | nil =>
        rw [nil_append, beNat_singleton] at hzero
        refine hhead ?_
        rw [nil_append, head?_cons, Option.some.injEq]
        exact UInt8.toNat_inj.mp hzero
      | cons y b =>
        have hrest : beNat (y :: b) = 0 := by omega
        have hrec : intBytes fuel (beNat (y :: b)) = y :: b := ih (by omega) hb
        rw [hrest] at hrec
        cases fuel with
        | zero => cases hrec
        | succ fuel =>
          rw [intBytes, if_pos rfl] at hrec
          cases hrec
    have hdiv : beNat (b ++ [x]) / 256 = beNat b := by omega
    have hmod : UInt8.ofNat (beNat (b ++ [x])) = x := by
      apply UInt8.toNat_inj.mp
      rw [UInt8.toNat_ofNat']
      omega
    rw [intBytes, if_neg hne, hdiv, hmod, ih (by omega) hb]

theorem putint_beNat {b : Bytes} (hlen : b.length ≤ 8) (hhead : b.head? ≠ some 0) :
    putint (beNat b) = b := intBytes_beNat b hlen hhead

theorem beNat_lt (b : Bytes) : beNat b < 256 ^ b.length := by
  induction b using reverseRecOn with
  | nil => exact Nat.one_pos
  | append_singleton b x ih =>
    have hx : x.toNat < 256 := x.toNat_lt
    rw [beNat_append, length_append, length_singleton, pow_one, beNat_singleton, pow_succ]
    omega

/-! ## Reads -/

/-- The stream after a number of bytes. -/
def advance (s : Stream) (n : Nat) : Stream :=
  { s with
    r := s.r.drop n
    remaining := s.remaining - n
    stack := s.stack.modifyHead (· - n)
    kind := none }

/-- The limits allow a number of bytes. -/
structure Within (s : Stream) (n : Nat) : Prop where
  list : ∀ limit, s.stack.head? = some limit → n ≤ limit
  input : n ≤ s.r.length

/-- The limit of the input is what the reader has. -/
structure Bounded (s : Stream) : Prop where
  limited : s.limited = true
  remaining : s.remaining = s.r.length

theorem Bounded.advance (h : Bounded s) (n : Nat) : Bounded (advance s n) where
  limited := h.limited
  remaining := by
    rw [Rlp.advance]
    simp only [length_drop, h.remaining]

theorem advance_advance (s : Stream) (m n : Nat) : advance (advance s m) n = advance s (m + n) := by
  rw [advance, advance, advance]
  simp only [drop_drop, Nat.sub_sub, modifyHead_modifyHead, Stream.mk.injEq, true_and, and_true]
  congr 1
  funext limit
  exact Nat.sub_sub limit m n

theorem Within.add (h : Within s m) (h' : Within (advance s m) n) : Within s (m + n) := by
  constructor
  · intro limit hlimit
    have hle := h.list limit hlimit
    have hle' := h'.list (limit - m) (by
      rw [advance]
      simp only [head?_modifyHead, hlimit, Option.map_some])
    omega
  · have hle := h.input
    have hle' := h'.input
    rw [advance] at hle'
    simp only [length_drop] at hle'
    omega

theorem Within.split (h : Within s (m + n)) : Within s m ∧ Within (advance s m) n := by
  refine ⟨⟨fun limit hlimit => ?_, ?_⟩, fun limit hlimit => ?_, ?_⟩
  · have := h.list limit hlimit
    omega
  · have := h.input
    omega
  · rw [advance] at hlimit
    simp only [head?_modifyHead, Option.map_eq_some_iff] at hlimit
    obtain ⟨limit', hlimit', rfl⟩ := hlimit
    have := h.list limit' hlimit'
    omega
  · have := h.input
    rw [advance]
    simp only [length_drop]
    omega

/-- The errors of reads: not the end of a list, and not a lack of fuel. -/
def ReadErr (e : StreamErr) : Prop := e ≠ .eol ∧ e ≠ .fuel

instance (e : StreamErr) : Decidable (ReadErr e) :=
  inferInstanceAs (Decidable (e ≠ .eol ∧ e ≠ .fuel))

theorem bounded_bounded (s : Stream) : Bounded s.bounded := ⟨rfl, rfl⟩

/-- The stream after a read. -/
def took (s : Stream) (n : Nat) : Stream :=
  { s with
    r := s.r.drop n
    remaining := if s.limited then s.remaining - n else s.remaining
    stack := s.stack.modifyHead (· - n)
    kind := none }

theorem visible_took (s : Stream) (n : Nat) : (took s n).visible = s.visible.drop n := by
  unfold Stream.visible took
  split
  · simp [drop_take]
  · rfl

theorem bounded_took (s : Stream) (n : Nat) : (took s n).bounded = advance s.bounded n := by
  unfold Stream.bounded advance
  rw [visible_took, length_drop]
  rfl

theorem length_visible (s : Stream) :
    s.visible.length = if s.limited then min s.remaining s.r.length else s.r.length := by
  unfold Stream.visible
  split
  · rw [length_take]
  · rfl

/-- A limit that is lowered, or none. -/
def Lower (stack stack' : List Nat) : Prop := ∃ n, stack' = stack.modifyHead (· - n)

theorem lower_refl (stack : List Nat) : Lower stack stack := by
  refine ⟨0, ?_⟩
  rcases stack with _ | ⟨limit, stack⟩ <;> rfl

theorem Lower.trans {a b c : List Nat} (h : Lower a b) (h' : Lower b c) : Lower a c := by
  obtain ⟨n, rfl⟩ := h
  obtain ⟨m, rfl⟩ := h'
  refine ⟨n + m, ?_⟩
  rcases a with _ | ⟨limit, a⟩
  · rfl
  · simp [Nat.sub_sub]

/-- The input limit and the read after the list was charged. -/
theorem takeRemaining_read (s : Stream) (n : Nat) : (n ≤ s.visible.length ∧ s.takeRemaining n =
      ({ s with remaining := if s.limited then s.remaining - n else s.remaining }, .ok ()) ∧
        n ≤ s.r.length) ∨
      (s.visible.length < n ∧ (s.takeRemaining n = (s, .error .valueTooLarge) ∨ s.takeRemaining n =
          ({ s with remaining := if s.limited then s.remaining - n else s.remaining }, .ok ()) ∧
          s.r.length < n)) := by
  have hvisible := length_visible s
  unfold Stream.takeRemaining
  rcases hlimited : s.limited with _ | _
  · simp only [hlimited, Bool.false_eq_true, if_false] at hvisible ⊢
    rcases Nat.lt_or_ge s.r.length n with hlt | hge
    · exact .inr ⟨by omega, .inr ⟨by rw [← hlimited], hlt⟩⟩
    · exact .inl ⟨by omega, by rw [← hlimited], hge⟩
  simp only [hlimited, if_true] at hvisible ⊢
  by_cases hrem : s.remaining < n
  · rw [if_pos hrem]
    exact .inr ⟨by omega, .inl rfl⟩
  · rw [if_neg hrem]
    rcases Nat.lt_or_ge s.r.length n with hlt | hge
    · exact .inr ⟨by omega, .inr ⟨by rw [← hlimited], hlt⟩⟩
    · exact .inl ⟨by omega, by rw [← hlimited], hge⟩

/-- A read takes its bytes off the limits, or fails and lowers the limit of the list at most. -/
theorem readFull_took (s : Stream) (n : Nat) :
    (Within s.bounded n ∧ s.readFull n = (took s n, .ok (s.r.take n))) ∨
      (¬ Within s.bounded n ∧ ∃ s' e, s.readFull n = (s', .error e) ∧ ReadErr e ∧ s'.kind = none ∧
        Lower s.stack s'.stack ∧
        ((∃ limit, s.stack.head? = some limit ∧ limit < n) → e = .elemTooLarge)) := by
  unfold Stream.readFull
  by_cases hlist : ∀ limit, s.stack.head? = some limit → n ≤ limit
  · have hwill : s.willRead n = Stream.takeRemaining
        { s with kind := none, stack := s.stack.modifyHead (· - n) } n := by
      unfold Stream.willRead
      rcases hstack : s.stack with _ | ⟨limit, stack⟩
      · rfl
      · simp only [if_neg (not_lt.mpr (hlist limit (by rw [hstack]; rfl)))]
        rfl
    have hnot : ¬ ∃ limit, s.stack.head? = some limit ∧ limit < n := by
      rintro ⟨limit, h, hlt⟩
      exact absurd (hlist limit h) (not_le.mpr hlt)
    rw [hwill]
    rcases takeRemaining_read { s with kind := none, stack := s.stack.modifyHead (· - n) } n with
      ⟨hvis, hok, hr⟩ | ⟨hvis, herr | ⟨hok, hr⟩⟩
    · left
      refine ⟨⟨hlist, hvis⟩, ?_⟩
      simp only [hok, if_neg (not_lt.mpr hr)]
      rfl
    · right
      refine ⟨fun h => absurd h.input (not_le.mpr hvis), ?_⟩
      simp only [herr]
      exact ⟨_, _, rfl, by decide, rfl, ⟨n, rfl⟩, fun h => absurd h hnot⟩
    · right
      refine ⟨fun h => absurd h.input (not_le.mpr hvis), ?_⟩
      simp only [hok, if_pos hr]
      exact ⟨_, _, rfl, by decide, rfl, ⟨n, rfl⟩, fun h => absurd h hnot⟩
  · right
    refine ⟨fun h => hlist h.list, ?_⟩
    unfold Stream.willRead
    rcases hstack : s.stack with _ | ⟨limit, stack⟩
    · rw [hstack] at hlist
      exact absurd (fun _ h => by cases h) hlist
    · rw [hstack, head?_cons] at hlist
      simp only [Option.some.injEq, forall_eq', not_le] at hlist
      simp only [if_pos hlist]
      exact ⟨_, _, rfl, by decide, rfl, hstack ▸ lower_refl _, fun _ => rfl⟩

/-- Of a bounded stream all of the input may be read. -/
theorem readFull_cases (hs : Bounded s) (n : Nat) :
    (Within s n ∧ s.readFull n = (advance s n, .ok (s.r.take n))) ∨
      ∃ s' e, ¬ Within s n ∧ s.readFull n = (s', .error e) ∧ ReadErr e := by
  have hvisible : s.visible = s.r := by
    rw [Stream.visible, if_pos hs.limited, hs.remaining, take_length]
  have hbounded : s.bounded = s := by
    rw [Stream.bounded, hvisible, ← hs.remaining, ← hs.limited]
  have htook : took s n = advance s n := by rw [took, if_pos hs.limited, advance]
  rcases readFull_took s n with ⟨hin, heq⟩ | ⟨hin, s', e, heq, he, -⟩
  · rw [hbounded] at hin
    rw [htook] at heq
    exact .inl ⟨hin, heq⟩
  · rw [hbounded] at hin
    exact .inr ⟨s', e, hin, heq, he⟩

/-- A byte is a read of one byte. -/
theorem readByte_eq (s : Stream) : s.readByte = match s.readFull 1 with
      | (s, .error e) => (s, .error e)
      | (s, .ok b) => (s, .ok (b.headD 0)) := by
  unfold Stream.readByte Stream.readFull
  rcases s.willRead 1 with ⟨s', e | u⟩
  · rfl
  · rcases hr : s'.r with _ | ⟨x, r⟩
    · simp [hr]
      rw [← hr]
    · simp [hr]

/-- A read of no bytes changes nothing but the kind. -/
theorem readFull_zero (s : Stream) : s.readFull 0 = ({ s with kind := none }, .ok []) := by
  rcases readFull_took s 0 with ⟨-, h⟩ | ⟨hnot, -⟩
  · rw [h, took, drop_zero, Nat.sub_zero, ite_self]
    cases s.stack with
    | nil => rfl
    | cons limit stack => rfl
  · exact absurd ⟨fun _ _ => Nat.zero_le _, Nat.zero_le _⟩ hnot

theorem readFull_length {s s' : Stream} {n : Nat} {b : Bytes} (h : s.readFull n = (s', .ok b)) :
    b.length = n := by
  unfold Stream.readFull at h
  rcases hw : s.willRead n with ⟨s₁, e | u⟩
  · simp [hw] at h
  simp only [hw] at h
  split at h
  · simp at h
  · rename_i hlen
    simp only [Prod.mk.injEq, Except.ok.injEq] at h
    rw [← h.2, length_take]
    omega

/-- `readUint` is a read, with a check for a leading zero from two bytes on. -/
theorem readUint_eq (s : Stream) (size : Nat) : s.readUint size = match s.readFull size with
      | (s, .error e) => (s, .error e)
      | (s, .ok b) =>
        if 2 ≤ size ∧ b.head? = some 0 then (s, .error .canonSize) else (s, .ok (beNat b)) := by
  match size with
  | 0 =>
    rw [Stream.readUint, readFull_zero]
    rfl
  | 1 =>
    rw [Stream.readUint, readByte_eq]
    rcases hread : s.readFull 1 with ⟨s', e | b⟩
    · rfl
    · obtain ⟨x, rfl⟩ := length_eq_one_iff.mp (readFull_length hread)
      simp [beNat_singleton]
  | size + 2 =>
    rw [Stream.readUint]
    · rcases s.readFull (size + 2) with ⟨s', e | b⟩
      · rfl
      · simp
    · simp
    · simp

theorem readByte_cases (hs : Bounded s) :
    (∃ b rest, s.r = b :: rest ∧ Within s 1 ∧ s.readByte = (advance s 1, .ok b)) ∨
      ∃ s' e, ¬ Within s 1 ∧ s.readByte = (s', .error e) ∧ ReadErr e := by
  rw [readByte_eq]
  rcases readFull_cases hs 1 with ⟨hin, heq⟩ | ⟨s', e, hin, heq, he⟩
  · left
    obtain ⟨b, rest, hr⟩ := exists_cons_of_length_pos hin.input
    refine ⟨b, rest, hr, hin, ?_⟩
    rw [heq, hr]
    rfl
  · right
    rw [heq]
    exact ⟨s', e, hin, rfl, he⟩

/-! ## Headers -/

/-- The header of a value: kind, size, the byte that is its own value, and the bytes. -/
inductive Header : Kind → Nat → UInt8 → Bytes → Prop where
  | byte {b : UInt8} : b.toNat < 0x80 → Header .byte 0 b [b]
  | string {size : Nat} : size < 2 ^ 64 → Header .string size 0 (puthead 0x80 0xB7 size)
  | list {size : Nat} : size < 2 ^ 64 → Header .list size 0 (puthead 0xC0 0xF7 size)

theorem Bounded.byteval (h : Bounded s) (b : UInt8) :
    Bounded { s with byteval := b } := ⟨h.limited, h.remaining⟩

theorem Within.byteval : Within { s with byteval := b } n ↔ Within s n :=
  ⟨fun h => ⟨h.list, h.input⟩, fun h => ⟨h.list, h.input⟩⟩

/-- `readUint` of a size. -/
theorem readUint_cases (hs : Bounded s) (n : Nat) :
    (Within s n ∧ (2 ≤ n → (s.r.take n).head? ≠ some 0) ∧
      s.readUint n = (advance s n, .ok (beNat (s.r.take n)))) ∨
      ∃ s' e, ¬ (Within s n ∧ (2 ≤ n → (s.r.take n).head? ≠ some 0)) ∧
        s.readUint n = (s', .error e) ∧ ReadErr e := by
  rw [readUint_eq]
  rcases readFull_cases hs n with ⟨hin, heq⟩ | ⟨s', e, hin, heq, he⟩
  · rw [heq]
    simp only
    by_cases hhead : 2 ≤ n ∧ (s.r.take n).head? = some 0
    · rw [if_pos hhead]
      exact .inr ⟨_, _, fun h => h.2 hhead.1 hhead.2, rfl, by decide⟩
    · rw [if_neg hhead]
      exact .inl ⟨hin, fun h2 hzero => hhead ⟨h2, hzero⟩, rfl⟩
  · right
    rw [heq]
    exact ⟨s', e, fun h => hin h.1, rfl, he⟩

/-- What reading the size of a long value gives: the bytes that `putint` writes for it, or an
error. -/
inductive SizeRead (s : Stream) (k : Kind) (n : Nat) :
    Stream × Kind × Nat × Option StreamErr → Prop where
  | read {size : Nat} : 56 ≤ size → size < 2 ^ 64 → Within s n → s.r.take n = putint size →
      SizeRead s k n (advance s n, k, size, none)
  | failed {s' : Stream} {size : Nat} {e : StreamErr} : ReadErr e →
      SizeRead s k n (s', k, size, some e)

theorem readSize_read (hs : Bounded s) (k : Kind) (hn : 0 < n) (hn8 : n ≤ 8) :
    SizeRead s k n (s.readSize k n) := by
  rw [Stream.readSize]
  rcases readUint_cases hs n with ⟨hin, hhead, heq⟩ | ⟨s₁, e, -, heq, he⟩
  · rw [heq]
    simp only
    by_cases h56 : beNat (s.r.take n) < 56
    · rw [if_pos h56]
      exact .failed (by decide)
    rw [if_neg h56]
    rw [not_lt] at h56
    have hlen : (s.r.take n).length = n := by
      rw [length_take]
      exact Nat.min_eq_left hin.input
    have hlt := beNat_lt (s.r.take n)
    have hpow : (256 : Nat) ^ (s.r.take n).length ≤ 256 ^ 8 :=
      Nat.pow_le_pow_right (by decide) (by omega)
    refine .read h56 ?_ hin (putint_beNat (by omega) ?_).symm
    · have h64 : (256 : Nat) ^ 8 = 2 ^ 64 := by norm_num
      omega
    · intro hzero
      by_cases h2 : 2 ≤ n
      · exact hhead h2 hzero
      -- a size of one byte is at least 56
      have hone : (s.r.take n).length = 1 := by omega
      obtain ⟨x, hx⟩ := length_eq_one_iff.mp hone
      rw [hx] at hzero h56
      cases hzero
      rw [beNat_singleton] at h56
      exact absurd h56 (by decide)
  · rw [heq]
    exact .failed he

theorem readSize_complete (hs : Bounded s) (k : Kind) (h56 : 56 ≤ size)
    (h64 : size < 2 ^ 64) (hr : s.r = putint size ++ rest) (hin : Within s (putint size).length) :
    s.readSize k (putint size).length = (advance s (putint size).length, k, size, none) := by
  obtain ⟨hpos, hhead, hval⟩ := putint_large h56 h64
  have htake : s.r.take (putint size).length = putint size := by rw [hr, take_left]
  rcases readUint_cases hs (putint size).length with ⟨-, -, heq⟩ | ⟨_, _, hnot, -, -⟩
  · rw [Stream.readSize, heq, htake, hval]
    simp only [if_neg (not_lt.mpr h56)]
  · rw [htake] at hnot
    exact absurd ⟨hin, fun _ => hhead⟩ hnot

theorem ofNat_eq (h : b.toNat = n) : UInt8.ofNat n = b := by
  apply UInt8.toNat_inj.mp
  rw [UInt8.toNat_ofNat', ← h]
  exact Nat.mod_eq_of_lt b.toNat_lt

/-- What reading a header gives: one that is written, or an error. -/
inductive HeaderRead (s : Stream) : Stream × Kind × Nat × Option StreamErr → Prop where
  | read {k : Kind} {size : Nat} {b : UInt8} {head : Bytes} (rest : Bytes) :
      Header k size b head → s.r = head ++ rest → Within s head.length →
      HeaderRead s ({ advance s head.length with byteval := b }, k, size, none)
  | failed {s' : Stream} {k : Kind} {size : Nat} {e : StreamErr} : ReadErr e →
      HeaderRead s (s', k, size, some e)

theorem readKind_read (hs : Bounded s) : HeaderRead s s.readKind := by
  rw [Stream.readKind]
  rcases readByte_cases hs with ⟨b, rest, hr, hin, heq⟩ | ⟨s₁, e, -, heq, he⟩
  swap
  · rw [heq]
    simp only
    split
    · exact .failed (by decide)
    · exact .failed he
  rw [heq]
  simp only
  have hb := b.toNat_lt
  have hshort : ∀ {small large : Nat} {kind : Kind}, small ≤ b.toNat → b.toNat < small + 56 →
      Header kind (b.toNat - small) 0 (puthead small large (b.toNat - small)) →
      HeaderRead s ({ advance s 1 with byteval := 0 }, kind, b.toNat - small, none) := by
    intro small large kind hle hlt hheader
    rw [puthead_of_lt (by omega), ofNat_eq (b := b) (by omega)] at hheader
    exact .read rest hheader hr hin
  have hlong : ∀ {small large : Nat} {kind : Kind}, large < b.toNat → b.toNat ≤ large + 8 →
      (∀ {size : Nat}, size < 2 ^ 64 → Header kind size 0 (puthead small large size)) →
      HeaderRead s (Stream.readSize { advance s 1 with byteval := 0 } kind (b.toNat - large)) := by
    intro small large kind hlt hle hheader
    have hread := readSize_read (n := b.toNat - large) ((hs.advance 1).byteval 0) kind
      (by omega) (by omega)
    generalize Stream.readSize _ kind (b.toNat - large) = out at hread ⊢
    cases hread with
    | failed he => exact .failed he
    | @read size h56 h64 hin' htake =>
      have hin'' := hin.add (Within.byteval.mp hin')
      have htake' : rest.take (b.toNat - large) = putint size := by
        rw [← htake, advance, hr]
        rfl
      have hlen : (putint size).length = b.toNat - large := by
        have hle' := hin''.input
        rw [hr, length_cons] at hle'
        rw [← htake', length_take]
        omega
      have hhead : puthead small large size = b :: putint size := by
        rw [puthead_of_le h56, ofNat_eq (b := b) (by omega)]
      have hsize : (b :: putint size).length = 1 + (b.toNat - large) := by
        rw [length_cons, hlen, Nat.add_comm]
      have hout := hheader h64
      rw [hhead] at hout
      have hdone := HeaderRead.read (s := s) (rest.drop (b.toNat - large)) hout (by
        rw [← htake', cons_append, take_append_drop]
        exact hr) (by
        rw [hsize]
        exact hin'')
      rw [hsize, ← advance_advance] at hdone
      exact hdone
  split
  · rename_i hlt
    exact .read rest (.byte hlt) hr hin
  split
  · exact hshort (by omega) (by omega) (.string (by omega))
  split
  · exact hlong (by omega) (by omega) .string
  split
  · exact hshort (by omega) (by omega) (.list (by omega))
  · exact hlong (by omega) (by omega) .list

/-- A header that is written is read. -/
theorem readKind_complete (hs : Bounded s) (hhead : Header k size b head) (hr : s.r = head ++ rest)
    (hin : Within s head.length) :
    s.readKind = ({ advance s head.length with byteval := b }, k, size, none) := by
  -- the first byte of the header
  have hfirst : ∀ {x : UInt8} {tl : Bytes}, head = x :: tl → s.readByte = (advance s 1, .ok x) := by
    intro x tl hx
    rcases readByte_cases hs with ⟨x', rest', hr', -, heq⟩ | ⟨_, _, hnot, -, -⟩
    · rw [hr, hx, cons_append] at hr'
      cases hr'
      exact heq
    · rw [hx, length_cons, Nat.add_comm] at hin
      exact absurd hin.split.1 hnot
  have hlong : ∀ {tag : Nat} {kind : Kind}, 56 ≤ size → size < 2 ^ 64 →
      head = UInt8.ofNat (tag + (putint size).length) :: putint size →
      Stream.readSize { advance s 1 with byteval := 0 } kind (putint size).length =
        ({ advance s head.length with byteval := 0 }, kind, size, none) := by
    intro tag kind h56 h64 hx
    have hlen : head.length = 1 + (putint size).length := by
      rw [hx, length_cons, Nat.add_comm]
    have hrest : (advance s 1).r = putint size ++ rest := by
      rw [advance, hr, hx]
      rfl
    rw [hlen] at hin
    rw [readSize_complete ((hs.advance 1).byteval 0) kind h56 h64 hrest
      (Within.byteval.mpr hin.split.2), hlen, ← advance_advance]
    rfl
  have h8 := putint_length_le size
  cases hhead with
  | byte hlt =>
    rw [Stream.readKind, hfirst rfl]
    simp only [if_pos hlt]
    rfl
  | @string size h64 =>
    by_cases h56 : size < 56
    · have hx := puthead_of_lt (s := 0x80) (l := 0xB7) h56
      rw [Stream.readKind, hfirst hx, hx]
      simp only [UInt8.toNat_ofNat_of_lt' (show 0x80 + size < 256 by omega)]
      rw [if_neg (by omega), if_pos (by omega), Nat.add_sub_cancel_left]
      rfl
    · rw [not_lt] at h56
      have hx := puthead_of_le (s := 0x80) (l := 0xB7) h56
      have hpos := (putint_large h56 h64).1
      rw [Stream.readKind, hfirst hx]
      simp only [UInt8.toNat_ofNat_of_lt' (show 0xB7 + (putint size).length < 256 by omega)]
      rw [if_neg (by omega), if_neg (by omega), if_pos (by omega), Nat.add_sub_cancel_left]
      exact hlong h56 h64 hx
  | @list size h64 =>
    by_cases h56 : size < 56
    · have hx := puthead_of_lt (s := 0xC0) (l := 0xF7) h56
      rw [Stream.readKind, hfirst hx, hx]
      simp only [UInt8.toNat_ofNat_of_lt' (show 0xC0 + size < 256 by omega)]
      rw [if_neg (by omega), if_neg (by omega), if_neg (by omega), if_pos (by omega),
        Nat.add_sub_cancel_left]
      rfl
    · rw [not_lt] at h56
      have hx := puthead_of_le (s := 0xC0) (l := 0xF7) h56
      have hpos := (putint_large h56 h64).1
      rw [Stream.readKind, hfirst hx]
      simp only [UInt8.toNat_ofNat_of_lt' (show 0xF7 + (putint size).length < 256 by omega)]
      rw [if_neg (by omega), if_neg (by omega), if_neg (by omega), if_neg (by omega),
        Nat.add_sub_cancel_left]
      exact hlong h56 h64 hx

/-! ## The kind of the value ahead -/

/-- A stream before a value. -/
structure Ready (s : Stream) : Prop extends Bounded s where
  kind : s.kind = none
  short : s.r.length < 2 ^ 63
  stack : ∀ limit ∈ s.stack, limit < 2 ^ 64

/-- The stream when a header is read. -/
def ahead (s : Stream) (k : Kind) (size : Nat) (b : UInt8) (head : Bytes) : Stream :=
  { advance s head.length with
    byteval := b
    kind := some k
    size := size
    kinderr := none }

theorem header_length_pos (h : Header k size b head) : 0 < head.length := by
  cases h with
  | byte => exact Nat.one_pos
  | string => exact puthead_length_pos _ _ _
  | list => exact puthead_length_pos _ _ _

theorem kind_at_end (hk : s.kind = none) (h : s.stack.head? = some 0) :
    s.Kind = (s, .byte, 0, some .eol) := by
  rw [Stream.Kind, hk]
  simp only [if_pos h]

/-- What `Kind` gives: the end of the list, a header whose size the input has, or an error. -/
inductive KindRead (s : Stream) : Stream × Kind × Nat × Option StreamErr → Prop where
  | eol : s.stack.head? = some 0 → KindRead s (s, .byte, 0, some .eol)
  | read {k : Kind} {size : Nat} {b : UInt8} {head rest : Bytes} :
      Header k size b head → s.r = head ++ rest → Within s head.length → size ≤ rest.length →
      KindRead s (ahead s k size b head, k, size, none)
  | failed {s' : Stream} {k : Kind} {size : Nat} {e : StreamErr} : ReadErr e →
      KindRead s (s', k, size, some e)

theorem kind_outcome (hs : Ready s) : KindRead s s.Kind := by
  rw [Stream.Kind, hs.kind]
  simp only
  split
  · rename_i hend
    exact .eol hend
  have hread := readKind_read hs.toBounded
  generalize s.readKind = out at hread ⊢
  cases hread with
  | failed he => exact .failed he
  | @read k size b head rest hhead hr hin =>
    simp only [Stream.checkSize]
    split
    · exact .failed (by decide)
    split
    · exact .failed (by decide)
    next hlim =>
    have hrem : (advance s head.length).remaining = rest.length := by
      rw [(hs.toBounded.advance head.length).remaining, advance, hr, drop_left]
    refine .read hhead hr hin ?_
    by_contra hlt
    refine hlim ⟨hs.limited, ?_⟩
    rw [hrem]
    omega

theorem kind_complete (hs : Ready s) (hhead : Header k size b head) (hr : s.r = head ++ rest)
    (hin : Within s head.length) (hlist : ∀ limit, s.stack.head? = some limit → size ≤ limit)
    (hinput : size ≤ rest.length) : s.Kind = (ahead s k size b head, k, size, none) := by
  have hpos := header_length_pos hhead
  have hend : ¬ s.stack.head? = some 0 := by
    intro h
    have := hin.list 0 h
    omega
  have hrem : (advance s head.length).remaining = rest.length := by
    rw [(hs.toBounded.advance head.length).remaining, advance, hr, drop_left]
  have hcheck : Stream.checkSize { advance s head.length with byteval := b } s.stack.head? size =
      none := by
    rw [Stream.checkSize, if_neg, if_neg]
    · rintro ⟨-, hlt⟩
      simp only [hrem] at hlt
      omega
    · cases hlimit : s.stack.head? with
      | none => exact Bool.false_ne_true
      | some limit =>
        have := hlist limit hlimit
        simp only [Option.any_some, decide_eq_true_eq]
        omega
  rw [Stream.Kind, hs.kind]
  simp only [if_neg hend, readKind_complete hs.toBounded hhead hr hin, hcheck]
  rfl

/-- A kind that is read is not read again. -/
theorem kind_ahead (s : Stream) (k : Kind) (size : Nat) (b : UInt8) (head : Bytes) :
    (ahead s k size b head).Kind = (ahead s k size b head, k, size, none) := rfl

/-! ## Soundness -/

/-- The limits after a number of bytes: that of the innermost list is reduced, as a
`uint64`. -/
inductive Shrunk (n : Nat) : List Nat → List Nat → Prop where
  | nil : Shrunk n [] []
  | cons {limit limit' : Nat} (stack : List Nat) : limit < 2 ^ 64 → limit' < 2 ^ 64 →
      (limit' + n) % 2 ^ 64 = limit → Shrunk n (limit :: stack) (limit' :: stack)

theorem Shrunk.refl {stack : List Nat} (h : ∀ limit ∈ stack, limit < 2 ^ 64) :
    Shrunk 0 stack stack := by
  cases stack with
  | nil => exact .nil
  | cons limit stack =>
    have hlimit := h limit mem_cons_self
    exact .cons stack hlimit hlimit (Nat.mod_eq_of_lt hlimit)

theorem Shrunk.trans {a b c : List Nat} (h : Shrunk m a b) (h' : Shrunk n b c) :
    Shrunk (m + n) a c := by
  cases h with
  | nil =>
    cases h'
    exact .nil
  | cons stack hlimit hlimit' heq =>
    cases h' with
    | cons _ _ hlimit'' heq' =>
      refine .cons stack hlimit hlimit'' ?_
      omega

/-- A value that was read off a stream. -/
structure Consumed (s s' : Stream) (out : Bytes) : Prop where
  input : s.r = out ++ s'.r
  shrunk : Shrunk out.length s.stack s'.stack
  ready : Ready s'

theorem Consumed.trans {s₁ s₂ : Stream} {a b : Bytes} (h : Consumed s s₁ a) (h' : Consumed s₁ s₂ b)
    : Consumed s s₂ (a ++ b) where
  input := by rw [h.input, h'.input, append_assoc]
  shrunk := by
    rw [length_append]
    exact h.shrunk.trans h'.shrunk
  ready := h'.ready

theorem shrunk_advance (hs : Ready s) (hin : Within s n) :
    Shrunk n s.stack (advance s n).stack := by
  rw [advance]
  cases hstack : s.stack with
  | nil => exact .nil
  | cons limit stack =>
    have hle := hin.list limit (by rw [hstack]; rfl)
    have hlt := hs.stack limit (by rw [hstack]; exact mem_cons_self)
    have hsub : limit - n < 2 ^ 64 := by omega
    have hadd : (limit - n + n) % 2 ^ 64 = limit := by omega
    exact .cons stack hlt hsub hadd

/-- A change of the innermost limit that keeps it a `uint64`. -/
theorem lt_of_mem_modifyHead {f : Nat → Nat} (hf : ∀ limit < 2 ^ 64, f limit < 2 ^ 64)
    {stack : List Nat} (h : ∀ limit ∈ stack, limit < 2 ^ 64) :
    ∀ limit ∈ stack.modifyHead f, limit < 2 ^ 64 := by
  cases stack with
  | nil => exact h
  | cons limit stack =>
    obtain ⟨hlimit, hrest⟩ := forall_mem_cons.mp h
    exact forall_mem_cons.mpr ⟨hf limit hlimit, hrest⟩

theorem stack_advance (hs : Ready s) (n : Nat) : ∀ limit ∈ (advance s n).stack, limit < 2 ^ 64 :=
  lt_of_mem_modifyHead (fun limit h => (Nat.sub_le limit n).trans_lt h) hs.stack

/-- A stream that differs from the advanced one in nothing that matters. -/
theorem consumed_advance (hs : Ready s) {out : Bytes} (hr : s.r = out ++ rest)
    (hin : Within s out.length) (hr' : s'.r = (advance s out.length).r)
    (hrem : s'.remaining = (advance s out.length).remaining)
    (hstack : s'.stack = (advance s out.length).stack) (hlim : s'.limited = s.limited)
    (hkind : s'.kind = none) : Consumed s s' out where
  input := by
    rw [hr', advance, hr, drop_left]
  shrunk := by
    rw [hstack]
    exact shrunk_advance hs hin
  ready :=
    { limited := hlim.trans hs.limited
      remaining := by
        rw [hrem, hr']
        exact (hs.toBounded.advance out.length).remaining
      kind := hkind
      short := by
        have := hs.short
        rw [hr', advance]
        simp only [length_drop]
        omega
      stack := by
        rw [hstack]
        exact stack_advance hs out.length }

theorem bounded_ahead (hs : Ready s) (k : Kind) (size : Nat) (b : UInt8) (head : Bytes) :
    Bounded (ahead s k size b head) :=
  ⟨hs.limited, (hs.toBounded.advance head.length).remaining⟩

theorem writeBytes_of_large {b : Bytes} (h : ∀ x, b = [x] → 128 ≤ x.toNat) :
    writeBytes b = puthead 0x80 0xB7 b.length ++ b := by
  unfold writeBytes
  split
  · rename_i x
    have := h x rfl
    rw [if_neg (by omega)]
    rfl
  · rfl

/-- What decoding gives: a value that is preceded by its encoding, or an error that is not the
end of a list. -/
inductive Decoded {α : Type} (enc : α → Bytes) (s : Stream) (enough : Prop) :
    Stream × Except StreamErr α → Prop where
  | ok {s' : Stream} {a : α} : Consumed s s' (enc a) → Decoded enc s enough (s', .ok a)
  | failed {s' : Stream} {e : StreamErr} : e ≠ .eol → (enough → e ≠ .fuel) →
      Decoded enc s enough (s', .error e)

theorem Decoded.of_readErr {α : Type} {enc : α → Bytes} {enough : Prop} (h : ReadErr e) :
    Decoded enc s enough (s', .error e) := .failed h.1 fun _ => h.2

/-- The string after its header. -/
theorem decodeString_out (hs : Ready s) (hhead : Header k size b head) (hr : s.r = head ++ rest)
    (hin : Within s head.length) (enough : Prop) :
    Decoded Value.enc s enough (decodeString (ahead s k size b head)) := by
  rw [decodeString, Stream.Bytes, kind_ahead]
  cases hhead with
  | @byte b hlt =>
    have henc : (Value.bytes [b]).enc = [b] := by
      rw [Value.enc, writeBytes, if_pos (by omega)]
    refine .ok ?_
    show Consumed s _ (Value.bytes [b]).enc
    rw [henc]
    exact consumed_advance hs hr hin rfl rfl rfl rfl rfl
  | @string size h64 =>
    rcases readFull_cases (bounded_ahead hs .string size 0 (puthead 0x80 0xB7 size)) size with
      ⟨hin', heq⟩ | ⟨_, _, -, heq, he⟩
    swap
    · simp only [heq]
      exact .of_readErr he
    have hahead : (ahead s .string size 0 (puthead 0x80 0xB7 size)).r = rest := by
      rw [ahead, advance, hr, drop_left]
    simp only [heq, hahead]
    by_cases hone : size = 1 ∧ (rest.take size).head?.any (fun c => c.toNat < 128) = true
    · rw [if_pos hone]
      exact .of_readErr (by decide)
    rw [if_neg hone]
    refine .ok ?_
    have hsize : size ≤ rest.length := by
      have := hin'.input
      rwa [hahead] at this
    have hlen : (rest.take size).length = size := by
      rw [length_take]
      exact Nat.min_eq_left hsize
    have henc : (Value.bytes (rest.take size)).enc =
        puthead 0x80 0xB7 size ++ rest.take size := by
      rw [Value.enc, writeBytes_of_large, hlen]
      intro x hx
      rw [hx, length_singleton] at hlen
      by_contra hlt
      refine hone ⟨hlen.symm, ?_⟩
      rw [hx]
      simp only [head?_cons, Option.any_some, decide_eq_true_eq]
      omega
    have hlength : (puthead 0x80 0xB7 size ++ rest.take size).length =
        (puthead 0x80 0xB7 size).length + size := by
      rw [length_append, hlen]
    have hinput : s.r = puthead 0x80 0xB7 size ++ rest.take size ++ rest.drop size := by
      rw [hr, append_assoc, take_append_drop]
    rw [henc]
    refine consumed_advance hs hinput ?_ ?_ ?_ ?_ rfl rfl
    · rw [hlength]
      exact hin.add ⟨hin'.list, hin'.input⟩
    all_goals
      rw [hlength, ← advance_advance]
      rfl
  | list => exact .of_readErr (by decide)

/-- The limits of the enclosing lists without an inner list. -/
def without (size : Nat) : List Nat → List Nat
  | [] => []
  | limit :: stack => sub64 limit size :: stack

/-- The stream in a list whose header is read. -/
def entered (s : Stream) (size : Nat) (head : Bytes) : Stream :=
  { ahead s .list size 0 head with
    stack := size :: without size (advance s head.length).stack
    kind := none
    size := 0 }

theorem list_ahead (s : Stream) (size : Nat) (head : Bytes) :
    (ahead s .list size 0 head).List = (entered s size head, .ok size) := by
  rw [Stream.List, kind_ahead]
  simp only
  rw [entered]
  have hstack : (ahead s .list size 0 head).stack = (advance s head.length).stack := rfl
  rw [hstack]
  cases (advance s head.length).stack with
  | nil => rfl
  | cons limit stack => rfl

theorem without_eq_modifyHead (size : Nat) (stack : List Nat) :
    without size stack = stack.modifyHead (sub64 · size) := by
  cases stack with
  | nil => rfl
  | cons => rfl

theorem sub64_lt (a b : Nat) : sub64 a b < 2 ^ 64 := Nat.mod_lt _ (by decide)

theorem shrunk_without (hsize : size < 2 ^ 64) {stack : List Nat}
    (h : ∀ limit ∈ stack, limit < 2 ^ 64) : Shrunk size stack (without size stack) := by
  cases stack with
  | nil => exact .nil
  | cons limit stack =>
    have hlimit := h limit mem_cons_self
    refine .cons stack hlimit (sub64_lt limit size) ?_
    rw [sub64]
    omega

theorem ready_entered (hs : Ready s) (head : Bytes) (hsize : size < 2 ^ 64) :
    Ready (entered s size head) where
  limited := hs.limited
  remaining := (hs.toBounded.advance head.length).remaining
  kind := rfl
  short := by
    have := hs.short
    show (s.r.drop head.length).length < 2 ^ 63
    rw [length_drop]
    omega
  stack := by
    refine forall_mem_cons.mpr ⟨hsize, ?_⟩
    rw [without_eq_modifyHead]
    exact lt_of_mem_modifyHead (fun limit _ => sub64_lt limit size) (stack_advance hs head.length)

/-- A list that ends: its elements are as long as its header says. -/
theorem endList_out {s₂ : Stream} (hs : Ready s) (h64 : size < 2 ^ 64)
    (hr : s.r = puthead 0xC0 0xF7 size ++ rest) (hin : Within s (puthead 0xC0 0xF7 size).length)
    (hitems : Consumed (entered s size (puthead 0xC0 0xF7 size)) s₂ (Value.encs items))
    (enough : Prop) : Decoded Value.enc s enough (endList s₂ items) := by
  have hrest : (entered s size (puthead 0xC0 0xF7 size)).r = rest := by
    show s.r.drop (puthead 0xC0 0xF7 size).length = rest
    rw [hr, drop_left]
  have hinput := hitems.input
  rw [hrest] at hinput
  have hshrunk := hitems.shrunk
  have hstack : (entered s size (puthead 0xC0 0xF7 size)).stack =
      size :: without size (advance s (puthead 0xC0 0xF7 size).length).stack := rfl
  rw [hstack] at hshrunk
  generalize hst : s₂.stack = stack at hshrunk
  cases hshrunk with
  | @cons _ limit' _ _ hlimit' heq =>
    rw [endList, Stream.ListEnd, hst]
    by_cases hpos : 0 < limit'
    · simp only [if_pos hpos]
      exact .of_readErr (by decide)
    simp only [if_neg hpos]
    -- nothing is that long, so that the sizes agree and not only modulo 2^64
    have hlen : (Value.encs items).length = size := by
      have hshort := hs.short
      rw [hr, length_append, hinput, length_append] at hshort
      omega
    have henc : (Value.list items).enc = puthead 0xC0 0xF7 size ++ Value.encs items := by
      rw [Value.enc, list, hlen]
    have hall := stack_advance hs (puthead 0xC0 0xF7 size).length
    refine .ok ?_
    rw [henc]
    refine ⟨?_, ?_, ?_⟩
    · rw [hr, hinput, append_assoc]
    · rw [length_append, hlen]
      exact (shrunk_advance hs hin).trans (shrunk_without h64 hall)
    · refine ⟨⟨hitems.ready.limited, hitems.ready.remaining⟩, rfl, hitems.ready.short, ?_⟩
      intro limit hlimit
      refine hitems.ready.stack limit ?_
      rw [hst]
      exact mem_cons_of_mem _ hlimit

theorem Consumed.nil (hs : Ready s) : Consumed s s (Value.encs []) := by
  rw [Value.encs]
  exact ⟨rfl, .refl hs.stack, hs⟩

/-- What is decoded is preceded by its encoding. The end of a list is found before anything is
read, and every round reads a byte or ends a list. -/
theorem decode_out : ∀ (fuel : Nat),
    (∀ {s : Stream}, Ready s →
      (s.stack.head? = some 0 ∧ decodeInterface fuel s = (s, .error .eol)) ∨
        Decoded Value.enc s (2 * s.r.length + 1 ≤ fuel) (decodeInterface fuel s)) ∧
    (∀ {s : Stream} (i : Nat), Ready s →
      Decoded Value.encs s (2 * s.r.length + 2 ≤ fuel) (decodeSliceElems fuel s i)) := by
  intro fuel
  induction fuel with
  | zero =>
    constructor
    · intro s hs
      exact .inr (.failed (by decide) fun h => absurd h (by omega))
    · intro s i hs
      exact .failed (by decide) fun h => absurd h (by omega)
  | succ fuel ih =>
    constructor
    · intro s hs
      rw [decodeInterface]
      have hread := kind_outcome hs
      generalize s.Kind = out at hread ⊢
      cases hread with
      | eol hend => exact .inl ⟨hend, rfl⟩
      | failed he => exact .inr (.of_readErr he)
      | @read _ size _ _ _ hhead hr hin =>
        right
        have hpos := header_length_pos hhead
        cases hhead with
        | byte hlt => exact decodeString_out hs (.byte hlt) hr hin _
        | string h64 => exact decodeString_out hs (.string h64) hr hin _
        | list h64 =>
          have hready := ready_entered hs (puthead 0xC0 0xF7 size) h64
          simp only [list_ahead]
          split
          · exact endList_out hs h64 hr hin (.nil hready) _
          have helems := ih.2 0 hready
          generalize decodeSliceElems fuel _ 0 = out at helems ⊢
          cases helems with
          | ok hitems => exact endList_out hs h64 hr hin hitems _
          | failed heol hfuel =>
            refine .failed heol fun henough => hfuel ?_
            show 2 * (s.r.drop (puthead 0xC0 0xF7 size).length).length + 2 ≤ fuel
            rw [hr, length_append] at henough
            rw [hr, drop_left]
            omega
    · intro s i hs
      rw [decodeSliceElems]
      rcases ih.1 hs with ⟨-, hend⟩ | hitem
      · rw [hend]
        exact .ok (.nil hs)
      generalize decodeInterface fuel s = out at hitem ⊢
      cases hitem with
      | @failed _ e heol hfuel =>
        cases e with
        | eol => exact absurd rfl heol
        | decode msg ctx => exact .failed (by rintro ⟨⟩) fun _ => by rintro ⟨⟩
        | _ => exact .failed heol fun henough => hfuel (by omega)
      | @ok s₁ item hfirst =>
        have hrest := ih.2 (i + 1) hfirst.ready
        simp only
        generalize decodeSliceElems fuel s₁ (i + 1) = out at hrest ⊢
        cases hrest with
        | ok hitems =>
          refine .ok ?_
          rw [Value.encs]
          exact hfirst.trans hitems
        | failed heol hfuel =>
          refine .failed heol fun henough => hfuel ?_
          have hpos := length_enc_pos item
          rw [hfirst.input, length_append] at henough
          omega

/-- What is decoded is preceded by its encoding. -/
theorem decodeInterface_sound {fuel : Nat} (hs : Ready s)
    (h : decodeInterface fuel s = (s', .ok v)) : Consumed s s' v.enc := by
  rcases (decode_out fuel).1 hs with ⟨-, hend⟩ | hout
  · rw [h] at hend
    cases hend
  · rw [h] at hout
    cases hout with
    | ok hdone => exact hdone

/-! ## Completeness -/

/-- The encoding of an item: a byte, or a header and what follows it. -/
inductive Encoded : Value → Bytes → Bytes → Prop where
  | byte {x : UInt8} : x.toNat < 0x80 → Encoded (.bytes [x]) [x] []
  | string {b : Bytes} : (∀ x, b = [x] → 128 ≤ x.toNat) →
      Encoded (.bytes b) (puthead 0x80 0xB7 b.length) b
  | list (items : List Value) :
      Encoded (.list items) (puthead 0xC0 0xF7 (Value.encs items).length) (Value.encs items)

theorem exists_encoded (v : Value) : ∃ head content, Encoded v head content ∧
    v.enc = head ++ content := by
  cases v with
  | list items => exact ⟨_, _, .list items, by rw [Value.enc, list]⟩
  | bytes b =>
    by_cases hlarge : ∀ x, b = [x] → 128 ≤ x.toNat
    · exact ⟨_, _, .string hlarge, by rw [Value.enc, writeBytes_of_large hlarge]⟩
    rw [not_forall] at hlarge
    obtain ⟨x, hx⟩ := hlarge
    rw [Classical.not_imp] at hx
    obtain ⟨rfl, hlt⟩ := hx
    refine ⟨[x], [], .byte (by omega), ?_⟩
    rw [Value.enc, writeBytes, if_pos (by omega), append_nil]

theorem encs_eq_nil (h : (Value.encs items).length = 0) : items = [] := by
  cases items with
  | nil => rfl
  | cons v items =>
    rw [Value.encs, length_append] at h
    have := length_enc_pos v
    omega

theorem endList_of_zero {stack : List Nat} (h : s.stack = 0 :: stack) (items : List Value) :
    ∃ s', endList s items = (s', .ok (.list items)) := by
  rw [endList, Stream.ListEnd, h]
  exact ⟨_, rfl⟩

/-- The string after its header is read. -/
theorem decodeString_complete (hs : Ready s) {b : Bytes} (hlarge : ∀ x, b = [x] → 128 ≤ x.toNat)
    (hr : s.r = puthead 0x80 0xB7 b.length ++ (b ++ rest))
    (hin : Within s ((puthead 0x80 0xB7 b.length).length + b.length)) :
    ∃ s', decodeString (ahead s .string b.length 0 (puthead 0x80 0xB7 b.length)) =
      (s', .ok (.bytes b)) := by
  have hahead : (ahead s .string b.length 0 (puthead 0x80 0xB7 b.length)).r = b ++ rest := by
    show s.r.drop _ = b ++ rest
    rw [hr, drop_left]
  rw [decodeString, Stream.Bytes, kind_ahead]
  simp only
  rcases readFull_cases (bounded_ahead hs .string b.length 0 (puthead 0x80 0xB7 b.length))
    b.length with ⟨-, heq⟩ | ⟨_, _, hnot, -, -⟩
  · have hcanon : ¬ (b.length = 1 ∧ b.head?.any (fun c => c.toNat < 128) = true) := by
      rintro ⟨hone, hany⟩
      obtain ⟨x, rfl⟩ := length_eq_one_iff.mp hone
      have := hlarge x rfl
      simp only [head?_cons, Option.any_some, decide_eq_true_eq] at hany
      omega
    rw [heq, hahead, take_left]
    simp only [if_neg hcanon]
    exact ⟨_, rfl⟩
  · exact absurd ⟨hin.split.2.list, hin.split.2.input⟩ hnot

/-- The encoding of an item is decoded to it. -/
theorem decode_complete : ∀ (fuel : Nat),
    (∀ {s : Stream} {v : Value} {rest : Bytes}, Ready s → s.r = v.enc ++ rest →
      Within s v.enc.length → 2 * v.enc.length + 1 ≤ fuel →
      ∃ s', decodeInterface fuel s = (s', .ok v)) ∧
    (∀ {s : Stream} {items : List Value} {rest : Bytes} {stack : List Nat} {i : Nat}, Ready s →
      s.r = Value.encs items ++ rest → s.stack = (Value.encs items).length :: stack →
      2 * (Value.encs items).length + 2 ≤ fuel →
      ∃ s', decodeSliceElems fuel s i = (s', .ok items)) := by
  intro fuel
  induction fuel with
  | zero =>
    constructor
    · intro s v rest _ _ _ hfuel
      omega
    · intro s items rest stack i _ _ _ hfuel
      omega
  | succ fuel ih =>
    constructor
    · intro s v rest hs hr hin hfuel
      obtain ⟨head, content, hencoded, henc⟩ := exists_encoded v
      rw [henc, append_assoc] at hr
      rw [henc, length_append] at hin hfuel
      have hshort := hs.short
      rw [hr, length_append, length_append] at hshort
      have hlimit : ∀ limit, s.stack.head? = some limit → content.length ≤ limit := by
        intro limit hlimit
        have := hin.list limit hlimit
        omega
      have hinput : content.length ≤ (content ++ rest).length := by
        rw [length_append]
        exact Nat.le_add_right _ _
      rw [decodeInterface]
      cases hencoded with
      | @byte x hlt =>
        rw [kind_complete hs (.byte hlt) hr hin.split.1 (fun _ _ => Nat.zero_le _) (Nat.zero_le _)]
        exact ⟨_, rfl⟩
      | @string b hlarge =>
        rw [kind_complete hs (.string (by omega)) hr hin.split.1 hlimit hinput]
        exact decodeString_complete hs hlarge hr hin
      | list items =>
        have h64 : (Value.encs items).length < 2 ^ 64 := by omega
        rw [kind_complete hs (.list h64) hr hin.split.1 hlimit hinput]
        simp only [list_ahead]
        have hready := ready_entered hs (puthead 0xC0 0xF7 (Value.encs items).length) h64
        by_cases hzero : (Value.encs items).length = 0
        · obtain rfl : items = [] := encs_eq_nil hzero
          rw [if_pos hzero]
          have hst : (entered s 0 (puthead 0xC0 0xF7 0)).stack =
              0 :: without 0 (advance s (puthead 0xC0 0xF7 0).length).stack := rfl
          exact endList_of_zero hst []
        · rw [if_neg hzero]
          have hpos := puthead_length_pos 0xC0 0xF7 (Value.encs items).length
          have hrest : (entered s (Value.encs items).length
              (puthead 0xC0 0xF7 (Value.encs items).length)).r = Value.encs items ++ rest := by
            show s.r.drop _ = _
            rw [hr, drop_left]
          obtain ⟨s₂, helems⟩ := @ih.2 _ items rest _ 0 hready hrest rfl (by omega)
          rw [helems]
          have hout := (decode_out fuel).2 0 hready
          rw [helems] at hout
          obtain ⟨-, hshrunk, -⟩ | _ := hout
          generalize hst : s₂.stack = stack₂ at hshrunk
          have hstack : (entered s (Value.encs items).length
              (puthead 0xC0 0xF7 (Value.encs items).length)).stack =
              (Value.encs items).length :: without (Value.encs items).length
                (advance s (puthead 0xC0 0xF7 (Value.encs items).length).length).stack := rfl
          rw [hstack] at hshrunk
          cases hshrunk with
          | @cons _ limit' _ _ hlimit' heq =>
            have hend : limit' = 0 := by omega
            subst hend
            exact endList_of_zero hst items
    · intro s items rest stack i hs hr hstack hfuel
      rw [decodeSliceElems]
      cases items with
      | nil =>
        obtain ⟨fuel, rfl⟩ : ∃ m, fuel = m + 1 := ⟨fuel - 1, by omega⟩
        have hend : s.stack.head? = some 0 := by
          rw [hstack]
          rfl
        rw [decodeInterface, kind_at_end hs.kind hend]
        exact ⟨s, rfl⟩
      | cons v items =>
        rw [Value.encs, append_assoc] at hr
        rw [Value.encs, length_append] at hstack hfuel
        have hpos := length_enc_pos v
        have hin : Within s v.enc.length := by
          constructor
          · intro limit hlimit
            rw [hstack] at hlimit
            cases hlimit
            exact Nat.le_add_right _ _
          · rw [hr, length_append]
            exact Nat.le_add_right _ _
        obtain ⟨s₁, hitem⟩ := ih.1 hs hr hin (by omega)
        rw [hitem]
        have hfirst := decodeInterface_sound hs hitem
        have hr₁ : s₁.r = Value.encs items ++ rest :=
          (append_cancel_left (hr.symm.trans hfirst.input)).symm
        have hstack₁ : s₁.stack = (Value.encs items).length :: stack := by
          have hshort := hs.short
          rw [hr, length_append, length_append] at hshort
          have hshrunk := hfirst.shrunk
          rw [hstack] at hshrunk
          generalize s₁.stack = stack₁ at hshrunk ⊢
          cases hshrunk with
          | @cons _ limit' _ _ hlimit' heq =>
            have hlen : limit' = (Value.encs items).length := by omega
            rw [hlen]
        obtain ⟨s₂, hrest⟩ := @ih.2 s₁ items rest stack (i + 1) hfirst.ready hr₁ hstack₁ (by omega)
        simp only [hrest]
        exact ⟨s₂, rfl⟩

/-! ## `DecodeBytes` -/

theorem ready_reset {b : Bytes} (hb : b.length < 2 ^ 63) (hne : b ≠ []) : Ready (.reset b) where
  limited := decide_eq_true (length_pos_iff.mpr hne)
  remaining := rfl
  kind := rfl
  short := hb
  stack limit hlimit := absurd hlimit not_mem_nil

theorem decodeBytes_sound {b : Bytes} (hb : b.length < 2 ^ 63) {v : Value}
    (h : DecodeBytes b = .ok v) : v.enc = b := by
  by_cases hne : b = []
  · subst hne
    cases h
  rw [DecodeBytes] at h
  split at h
  · cases h
  next s v' hdec =>
  split at h
  · cases h
  next hrest =>
  cases h
  have hinput := (decodeInterface_sound (ready_reset hb hne) hdec).input
  have hnil : s.r = [] := length_eq_zero_iff.mp (by omega)
  rw [hnil, append_nil] at hinput
  exact hinput.symm

/-- The first value of the input is decoded, and what follows it is refused. -/
theorem decodeBytes_append {v : Value} {extra : Bytes} (hb : (v.enc ++ extra).length < 2 ^ 63) :
    DecodeBytes (v.enc ++ extra) = if extra = [] then .ok v else .error .moreThanOneValue := by
  have hne : v.enc ++ extra ≠ [] := by
    intro h
    have := length_enc_pos v
    rw [(append_eq_nil_iff.mp h).1] at this
    exact lt_irrefl 0 this
  have hready := ready_reset hb hne
  have hin : Within (.reset (v.enc ++ extra)) v.enc.length := by
    constructor
    · intro _ hlimit
      cases hlimit
    · show _ ≤ (v.enc ++ extra).length
      rw [length_append]
      exact Nat.le_add_right _ _
  obtain ⟨s, hdec⟩ := (decode_complete (2 * (v.enc ++ extra).length + 1)).1 hready rfl hin (by
    rw [length_append]
    omega)
  have hrest : s.r = extra :=
    (append_cancel_left (decodeInterface_sound hready hdec).input).symm
  rw [DecodeBytes, hdec]
  simp only [hrest, length_pos_iff]
  by_cases hextra : extra = []
  · rw [if_pos hextra, if_neg (not_not.mpr hextra)]
  · rw [if_neg hextra, if_pos hextra]

/-- The first byte of a header, and what follows it. -/
theorem puthead_tag {small large : Nat} {content : Bytes} {tag : UInt8}
    (h : puthead small large size ++ content = tag :: rest) :
    (size < 56 ∧ tag.toNat = (small + size) % 256) ∨
      (56 ≤ size ∧ tag.toNat = (large + (putint size).length) % 256 ∧
        rest = putint size ++ content) := by
  by_cases h56 : size < 56
  · rw [puthead_of_lt h56, cons_append, cons.injEq] at h
    rw [← h.1]
    exact .inl ⟨h56, UInt8.toNat_ofNat'⟩
  · rw [puthead_of_le (not_lt.mp h56), cons_append, cons.injEq] at h
    rw [← h.1]
    exact .inr ⟨not_lt.mp h56, UInt8.toNat_ofNat', h.2.symm⟩

/-- A long header is that of a size from 56 on, without leading zeros. -/
theorem enc_long_header (hv : v.enc.length < 2 ^ 63) {tag : UInt8} (h : v.enc = tag :: rest)
    (hn : 0 < n) (hn8 : n ≤ 8) (htag : tag.toNat = 0xB7 + n ∨ tag.toNat = 0xF7 + n) :
    rest.head? ≠ some 0 ∧ 56 ≤ beNat (rest.take n) := by
  have hlong : ∀ {small large size : Nat} {content : Bytes}, size < 2 ^ 64 →
      (small = 0x80 ∧ large = 0xB7) ∨ (small = 0xC0 ∧ large = 0xF7) →
      puthead small large size ++ content = tag :: rest →
      rest.head? ≠ some 0 ∧ 56 ≤ beNat (rest.take n) := by
    intro small large size content h64 hkind heq
    have h8 := putint_length_le size
    rcases puthead_tag heq with ⟨h56, htag'⟩ | ⟨h56, htag', rfl⟩
    · omega
    · obtain ⟨hpos, hhead, hval⟩ := putint_large h56 h64
      have hlen : (putint size).length = n := by omega
      rw [← hlen, take_left, hval, head?_append_of_ne_nil _ (length_pos_iff.mp hpos)]
      exact ⟨hhead, h56⟩
  obtain ⟨head, content, hencoded, henc⟩ := exists_encoded v
  rw [henc] at h hv
  rw [length_append] at hv
  cases hencoded with
  | @byte x hlt =>
    cases h
    omega
  | string => exact hlong (by omega) (.inl ⟨rfl, rfl⟩) h
  | list => exact hlong (by omega) (.inr ⟨rfl, rfl⟩) h

/-- A string of one byte has a header only from 0x80 on. -/
theorem enc_wrapped {x : UInt8} (h : v.enc = [0x81, x]) : 128 ≤ x.toNat := by
  obtain ⟨head, content, hencoded, henc⟩ := exists_encoded v
  rw [henc] at h
  have h81 : (0x81 : UInt8).toNat = 0x81 := rfl
  cases hencoded with
  | byte => cases h
  | string hlarge =>
    have h8 := putint_length_le content.length
    have hsize : content.length = 1 := by
      rcases puthead_tag h with ⟨h56, htag⟩ | ⟨h56, htag, -⟩
      · omega
      · omega
    obtain ⟨y, rfl⟩ := length_eq_one_iff.mp hsize
    rw [length_singleton, puthead_of_lt (by decide)] at h
    cases h
    exact hlarge x rfl
  | list items =>
    have h8 := putint_length_le (Value.encs items).length
    rcases puthead_tag h with ⟨h56, htag⟩ | ⟨h56, htag, -⟩
    · omega
    · omega

/-- `DecodeBytes` accepts exactly the encodings that `EncodeToBytes` produces. In
particular it refuses bytes after a value, a value that is cut short, a single byte below
0x80 with a header, and a size that is not minimal. It always has enough fuel. The bound on
the lengths is that of a Go slice: `len` is a signed 64 bit integer. -/
theorem decodeBytes_canonical (b : Bytes) (hb : b.length < 2 ^ 63) :
    (∀ v, DecodeBytes b = .ok v ↔ EncodeToBytes v = b) ∧
    DecodeBytes b ≠ .error .fuel ∧
    (∀ v extra, extra ≠ [] → b = EncodeToBytes v ++ extra →
      DecodeBytes b = .error .moreThanOneValue) ∧
    (∀ v extra, extra ≠ [] → (b ++ extra).length < 2 ^ 63 → EncodeToBytes v = b ++ extra →
      ∃ e, DecodeBytes b = .error e) ∧
    (∀ x : UInt8, x.toNat < 0x80 → b = [0x81, x] → ∃ e, DecodeBytes b = .error e) ∧
    (∀ (tag : UInt8) (rest : Bytes) (n : Nat), b = tag :: rest → 0 < n → n ≤ 8 →
      tag.toNat = 0xB7 + n ∨ tag.toNat = 0xF7 + n →
      rest.head? = some 0 ∨ beNat (rest.take n) < 56 → ∃ e, DecodeBytes b = .error e) := by
  have hrefused : (∀ v, DecodeBytes b ≠ .ok v) → ∃ e, DecodeBytes b = .error e := by
    intro hall
    cases h : DecodeBytes b with
    | error e => exact ⟨e, rfl⟩
    | ok v => exact absurd h (hall v)
  have hsound := fun v => @decodeBytes_sound b hb v
  refine ⟨fun v => ⟨fun h => ?_, fun h => ?_⟩, ?_, fun v extra hextra h => ?_,
    fun v extra hextra hlen h => ?_, fun x hx h => ?_, fun tag rest n h hn hn8 htag hsize => ?_⟩
  · have henc := hsound v h
    rw [encodeToBytes_eq (.inr (by rw [henc]; exact hb)), henc]
  · have henc := encodeToBytes_eq (v := v) (.inl (by rw [h]; exact hb))
    rw [h] at henc
    have happ := @decodeBytes_append v [] (by rw [append_nil, ← henc]; exact hb)
    rw [append_nil, ← henc, if_pos rfl] at happ
    exact happ
  · by_cases hne : b = []
    · subst hne
      rintro ⟨⟩
    · intro h
      rw [DecodeBytes] at h
      split at h
      · rename_i hdec
        cases h
        rcases (decode_out (2 * b.length + 1)).1 (ready_reset hb hne) with ⟨-, hend⟩ | hout
        · rw [hdec] at hend
          cases hend
        · rw [hdec] at hout
          cases hout with
          | failed _ hfuel => exact hfuel le_rfl rfl
      · split at h <;> cases h
  · have hlen : (EncodeToBytes v).length < 2 ^ 63 := by
      rw [h, length_append] at hb
      omega
    rw [encodeToBytes_eq (.inl hlen)] at h
    rw [h, decodeBytes_append (by rw [← h]; exact hb), if_neg hextra]
  · refine hrefused fun v' h' => ?_
    -- otherwise the longer encoding had the shorter one and more
    have henc := hsound v' h'
    rw [encodeToBytes_eq (.inl (by rw [h]; exact hlen)), ← henc] at h
    rw [← henc] at hlen
    have happ := decodeBytes_append hlen
    have hwhole := @decodeBytes_append v [] (by rw [append_nil, h]; exact hlen)
    rw [append_nil, if_pos rfl, h, happ, if_neg hextra] at hwhole
    cases hwhole
  · refine hrefused fun v h' => ?_
    have henc := hsound v h'
    rw [← henc] at hb
    have := enc_wrapped (henc.trans h)
    omega
  · refine hrefused fun v h' => ?_
    have henc := hsound v h'
    rw [← henc] at hb
    obtain ⟨hhead, h56⟩ := enc_long_header hb (henc.trans h) hn hn8 htag
    rcases hsize with hzero | hlt
    · exact hhead hzero
    · omega

theorem decodeBytes_canonical_pair :
    DecodeBytes [0xC2, 0x05, 0x80] = .ok (.list [.bytes [5], .bytes []]) ∧
    DecodeBytes [0xC2, 0x05, 0x80, 0x00] = .error .moreThanOneValue ∧
    ∃ e, DecodeBytes [0x81, 0x05] = .error e :=
  ⟨((decodeBytes_canonical [0xC2, 0x05, 0x80] (by decide)).1 _).mpr rfl,
    (decodeBytes_canonical [0xC2, 0x05, 0x80, 0x00] (by decide)).2.2.1
      (.list [.bytes [5], .bytes []]) [0x00] (by decide) rfl,
    (decodeBytes_canonical [0x81, 0x05] (by decide)).2.2.2.2.1 5 (by decide) rfl⟩

end GoEthereum.Rlp

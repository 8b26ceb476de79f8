import GoEthereum.Rlp.Operations

/-!
# The limits of open lists

The stream keeps what is left of every open list. `Kind` compares the size of the value ahead
with the limit of the innermost list from before the header was read, and `List` takes the
size off the limit from after. A header of `h` bytes for a content of `c` bytes passes when
`c ≤ limit < h + c`, and when it is that of a list, the limit of the outer list wraps around.

The runs are those of any operations over any input, with a limit of the input or without one.
Beside the stream they keep the sizes that the open lists declared.
-/

namespace GoEthereum.Rlp

open List

/-- The ways to get a stream: a reader with a limit of the input (zero for none), which is
found out where the reader tells its length; or a stream that pretends to be at a list. -/
inductive Start where
  | NewStream (r : Bytes) (inputLimit : UInt64) (sized : Bool)
  | NewListStream (r : Bytes) (len : UInt64) (sized : Bool)

/-- `Reset` of a new stream. -/
def resetStream (r : Bytes) (inputLimit : Nat) (sized : Bool) : Stream where
  r := r
  remaining := if 0 < inputLimit then inputLimit else if sized then r.length else 0
  size := 0
  kinderr := none
  stack := []
  kind := none
  byteval := 0
  limited := decide (0 < inputLimit) || sized

/-- `NewStream` and `NewListStream`. -/
def Start.stream : Start → Stream
  | .NewStream r inputLimit sized => resetStream r inputLimit.toNat sized
  | .NewListStream r len sized =>
    { resetStream r len.toNat sized with kind := some .list, size := len.toNat }

/-- The operations. -/
inductive StreamOp where
  | Kind
  | List
  | ListEnd
  | Bytes
  | ReadBytes (len : Nat)
  | Raw
  | Uint64
  | Uint32
  | Uint16
  | Uint8
  | Bool
  | BigInt
  | ReadUint256
  | MoreDataInList

/-- The stream after an operation. -/
def Stream.exec (s : Stream) : StreamOp → Stream
  | .Kind => s.Kind.1
  | .List => s.List.1
  | .ListEnd => s.ListEnd.1
  | .Bytes => s.Bytes.1
  | .ReadBytes len => (s.ReadBytes len).1
  | .Raw => s.Raw.1
  | .Uint64 => s.Uint64.1
  | .Uint32 => s.Uint32.1
  | .Uint16 => s.Uint16.1
  | .Uint8 => s.Uint8.1
  | .Bool => s.Bool.1
  | .BigInt => s.decodeBigInt.1
  | .ReadUint256 => s.ReadUint256.1
  | .MoreDataInList => s

/-- A stream with the sizes that its open lists declared, innermost first. -/
structure Tracked where
  stream : Stream
  declared : List Nat

/-- An operation: a list that is opened declares its size, and one that is closed is
forgotten. -/
def Tracked.step (t : Tracked) (op : StreamOp) : Tracked where
  stream := t.stream.exec op
  declared :=
    match op with
    | .List =>
      match t.stream.List.2 with
      | .ok size => size :: t.declared
      | .error _ => t.declared
    | .ListEnd =>
      match t.stream.ListEnd.2 with
      | .ok () => t.declared.tail
      | .error _ => t.declared
    | _ => t.declared

/-- Operations from a new stream on. -/
def Start.run (start : Start) (ops : List StreamOp) : Tracked :=
  ops.foldl Tracked.step ⟨start.stream, []⟩

/-- An element ahead of the stream, in a list with a number of bytes left: a header of a
number of bytes for a content of a number of bytes. -/
def Stream.ElementAhead (s : Stream) (limit header content : Nat) : Prop :=
  s.kind = none ∧ s.stack.head? = some limit ∧ 0 < limit ∧
    ∃ k b head rest, Header k content b head ∧ s.visible = head ++ rest ∧ head.length = header

/-- The accounts of a stream are in order: no list has more left than it declared, an element
that does not fit into the list is refused, and the subtraction in `List` does not wrap. -/
structure InOrder (t : Tracked) : Prop where
  declared : List.Forall₂ (· ≤ ·) t.stream.stack t.declared
  refused : ∀ limit header content, t.stream.ElementAhead limit header content →
    limit < header + content → t.stream.Kind.2.2.2 = some .elemTooLarge
  subtraction : ∀ s' size limit, t.stream.Kind = (s', .list, size, none) →
    s'.stack.head? = some limit → size ≤ limit

/-- The content of the element ahead fits into the list, its header does, and both together
do not. -/
def Overlaps (s : Stream) : Prop :=
  ∃ limit header content, s.ElementAhead limit header content ∧ header ≤ limit ∧
    content ≤ limit ∧ limit < header + content

/-! ## What a read leaves -/

/-- The limits after a read: lowered at most, and the kind is to be read again. -/
structure Rearmed (s s' : Stream) : Prop where
  kind : s'.kind = none
  lower : Lower s.stack s'.stack

theorem rearmed_readFull (s : Stream) (n : Nat) : Rearmed s (s.readFull n).1 := by
  rcases readFull_took s n with ⟨-, h⟩ | ⟨-, s', e, h, -, hkind, hlower, -⟩
  · rw [h]
    exact ⟨rfl, n, rfl⟩
  · rw [h]
    exact ⟨hkind, hlower⟩

/-! ## Reads of the two streams -/

/-- Outcomes on a stream and on the bounded one: the same success, or failures of any kind. -/
inductive Sim {α : Type} (s : Stream) :
    Stream × Except StreamErr α → Stream × Except StreamErr α → Prop where
  | ok {s' : Stream} (a : α) : Rearmed s s' → Sim s (s', .ok a) (s'.bounded, .ok a)
  | error {s' : Stream} (t : Stream) (e e' : StreamErr) : Rearmed s s' →
      Sim s (s', .error e) (t, .error e')

theorem sim_readFull (s : Stream) (n : Nat) : Sim s (s.readFull n) (s.bounded.readFull n) := by
  have harmed := rearmed_readFull s n
  rcases readFull_took s n with ⟨hin, h⟩ | ⟨hin, s', e, h, -⟩
  · rcases readFull_cases (bounded_bounded s) n with ⟨-, h'⟩ | ⟨_, _, hnot, -⟩
    · have htake : s.bounded.r.take n = s.r.take n := by
        have hle : n ≤ s.visible.length := hin.input
        rw [length_visible] at hle
        show s.visible.take n = s.r.take n
        unfold Stream.visible
        split
        · rename_i hlimited
          rw [if_pos hlimited] at hle
          rw [take_take, Nat.min_eq_left (by omega)]
        · rfl
      rw [h] at harmed ⊢
      rw [h', htake, ← bounded_took]
      exact .ok _ harmed
    · exact absurd hin hnot
  · rcases readFull_cases (bounded_bounded s) n with ⟨hin', -⟩ | ⟨_, _, -, h', -⟩
    · exact absurd hin' hin
    · rw [h] at harmed ⊢
      rw [h']
      exact .error _ _ _ harmed

theorem sim_readByte (s : Stream) : Sim s s.readByte s.bounded.readByte := by
  rw [readByte_eq, readByte_eq]
  have h := sim_readFull s 1
  generalize s.readFull 1 = x, s.bounded.readFull 1 = y at h ⊢
  rcases h with ⟨b, h⟩ | ⟨t, e, e', h⟩
  · exact .ok _ h
  · exact .error _ _ _ h

theorem sim_readUint (s : Stream) (n : Nat) : Sim s (s.readUint n) (s.bounded.readUint n) := by
  rw [readUint_eq, readUint_eq]
  have h := sim_readFull s n
  generalize s.readFull n = x, s.bounded.readFull n = y at h ⊢
  rcases h with ⟨b, h⟩ | ⟨t, e, e', h⟩
  · simp only
    split
    · exact .error _ _ _ h
    · exact .ok _ h
  · exact .error _ _ _ h

theorem rearmed_readUint (s : Stream) (n : Nat) : Rearmed s (s.readUint n).1 := by
  have h := sim_readUint s n
  generalize s.readUint n = x, s.bounded.readUint n = y at h ⊢
  rcases h with ⟨_, h⟩ | ⟨_, _, _, h⟩
  · exact h
  · exact h

/-- The same for headers. -/
inductive SimKind (s : Stream) :
    Stream × Kind × Nat × Option StreamErr → Stream × Kind × Nat × Option StreamErr → Prop where
  | ok {s' : Stream} (k : Kind) (size : Nat) : Lower s.stack s'.stack →
      SimKind s (s', k, size, none) (s'.bounded, k, size, none)
  | error {s' t : Stream} {k k' : Kind} {size size' : Nat} {e e' : StreamErr} :
      Lower s.stack s'.stack → SimKind s (s', k, size, some e) (t, k', size', some e')

theorem sim_readSize (s : Stream) (k : Kind) (n : Nat) :
    SimKind s (s.readSize k n) (s.bounded.readSize k n) := by
  unfold Stream.readSize
  have h := sim_readUint s n
  generalize s.readUint n = x, s.bounded.readUint n = y at h ⊢
  rcases h with ⟨size, h⟩ | ⟨t, e, e', h⟩
  · simp only
    split
    · exact .error h.lower
    · exact .ok _ _ h.lower
  · exact .error h.lower

theorem sim_readKind (s : Stream) : SimKind s s.readKind s.bounded.readKind := by
  unfold Stream.readKind
  have h := sim_readByte s
  generalize s.readByte = x, s.bounded.readByte = y at h ⊢
  rcases h with @⟨s', b, h⟩ | ⟨t, e, e', h⟩
  · have hsize : ∀ k n, SimKind s (Stream.readSize { s' with byteval := 0 } k n)
        (Stream.readSize { s'.bounded with byteval := 0 } k n) := by
      intro k n
      have hsim := sim_readSize { s' with byteval := 0 } k n
      have heq : Stream.bounded { s' with byteval := 0 } = { s'.bounded with byteval := 0 } := rfl
      rw [heq] at hsim
      generalize Stream.readSize { s' with byteval := 0 } k n = x,
        Stream.readSize { s'.bounded with byteval := 0 } k n = y at hsim ⊢
      rcases hsim with ⟨_, _, hlower⟩ | hlower
      · exact .ok _ _ (h.lower.trans hlower)
      · exact .error (h.lower.trans hlower)
    simp only
    split_ifs
    · exact .ok _ _ h.lower
    · exact .ok _ _ h.lower
    · exact hsize _ _
    · exact .ok _ _ h.lower
    · exact hsize _ _
  · simp only
    split_ifs
    all_goals exact .error h.lower

/-- A header that is read stands at the front of the visible input and fits into the list. -/
theorem readKind_visible {s s' : Stream} {k : Kind} {size : Nat}
    (h : s.readKind = (s', k, size, none)) :
    ∃ head b rest, Header k size b head ∧ s.visible = head ++ rest ∧
      (∀ limit, s.stack.head? = some limit → head.length ≤ limit) ∧
      s'.stack = s.stack.modifyHead (· - head.length) := by
  have hsim := sim_readKind s
  have hread := readKind_read (bounded_bounded s)
  rw [h] at hsim
  generalize s.bounded.readKind = out at hsim hread
  rcases hsim with ⟨_, _, -⟩
  generalize hs' : s'.bounded = t at hread
  cases hread with
  | @read _ _ b head rest hhead hr hin =>
    exact ⟨head, b, rest, hhead, hr, hin.list, congrArg Stream.stack hs'⟩

/-- A header at the front of the visible input that fits into the list is read. -/
theorem readKind_of_visible {s : Stream} {k : Kind} {size : Nat} {b : UInt8} {head rest : Bytes}
    (hhead : Header k size b head) (hr : s.visible = head ++ rest)
    (hlist : ∀ limit, s.stack.head? = some limit → head.length ≤ limit) :
    ∃ s', s.readKind = (s', k, size, none) := by
  have hin : Within s.bounded head.length := by
    refine ⟨hlist, ?_⟩
    show head.length ≤ s.visible.length
    rw [hr, length_append]
    omega
  have hbounded := readKind_complete (bounded_bounded s) hhead hr hin
  have hsim := sim_readKind s
  generalize s.readKind = x, s.bounded.readKind = y at hsim hbounded ⊢
  rcases hsim with @⟨s', k', size', -⟩ | _
  · simp only [Prod.mk.injEq] at hbounded
    obtain ⟨-, rfl, rfl, -⟩ := hbounded
    exact ⟨s', rfl⟩
  · simp at hbounded

/-- A header that does not fit into the list is refused while it is read. -/
theorem readKind_too_long {s : Stream} {k : Kind} {size : Nat} {b : UInt8} {head rest : Bytes}
    (hhead : Header k size b head) (hr : s.visible = head ++ rest) {limit : Nat}
    (hlimit : s.stack.head? = some limit) (hpos : 0 < limit) (hlong : limit < head.length) :
    s.readKind.2.2.2 = some .elemTooLarge := by
  -- the header is one of a long size, and its first byte is read
  have hlarge : ∃ base, (base = 0xB7 ∨ base = 0xF7) ∧ 56 ≤ size ∧
      head = UInt8.ofNat (base + (putint size).length) :: putint size := by
    have large : ∀ {small base : Nat}, 1 < (puthead small base size).length → 56 ≤ size ∧
        puthead small base size = UInt8.ofNat (base + (putint size).length) :: putint size := by
      intro small base hlen
      rcases Nat.lt_or_ge size 56 with hlt | hge
      · rw [puthead_of_lt hlt] at hlen
        simp at hlen
      · exact ⟨hge, puthead_of_le hge⟩
    rcases hhead with _ | _ | _
    · simp at hlong
      omega
    · exact ⟨0xB7, .inl rfl, large (by omega)⟩
    · exact ⟨0xF7, .inr rfl, large (by omega)⟩
  obtain ⟨base, hbase, h56, rfl⟩ := hlarge
  have h8 := putint_length_le size
  rw [length_cons] at hlong
  have hvisible : 1 ≤ s.visible.length := by simp [hr]
  have hin : Within s.bounded 1 := by
    refine ⟨fun limit' h => ?_, hvisible⟩
    have : s.stack.head? = some limit' := h
    rw [hlimit, Option.some.injEq] at this
    omega
  have hfirst : s.r.take 1 = [UInt8.ofNat (base + (putint size).length)] := by
    have hvis := hr
    unfold Stream.visible at hvis
    split at hvis
    · have := congrArg (take 1) hvis
      rw [take_take] at this
      rw [length_visible, if_pos ‹_›] at hvisible
      rwa [Nat.min_eq_left (by omega)] at this
    · rw [hvis]
      rfl
  have hread : s.readByte = (took s 1, .ok (UInt8.ofNat (base + (putint size).length))) := by
    rcases readFull_took s 1 with ⟨-, h⟩ | ⟨hnot, -⟩
    · rw [readByte_eq, h, hfirst]
      rfl
    · exact absurd hin hnot
  -- the size itself does not fit
  have hstack : (took s 1).stack.head? = some (limit - 1) := by
    show (s.stack.modifyHead (· - 1)).head? = _
    rw [head?_modifyHead, hlimit]
    rfl
  have hsize : ∀ k, (Stream.readSize { took s 1 with byteval := 0 } k (putint size).length).2.2.2 =
      some .elemTooLarge := by
    intro k
    rcases readFull_took { took s 1 with byteval := 0 } (putint size).length with
      ⟨hin', -⟩ | ⟨-, s', e, h, -, -, -, he⟩
    · have := hin'.list (limit - 1) hstack
      omega
    · rw [Stream.readSize, readUint_eq, h]
      simp only [he ⟨limit - 1, hstack, by omega⟩]
  unfold Stream.readKind
  simp only [hread, UInt8.toNat_ofNat_of_lt' (show base + (putint size).length < 256 by omega)]
  have hlen : 0 < (putint size).length := by omega
  rcases hbase with rfl | rfl
  · rw [if_neg (by omega), if_neg (by omega), if_pos (by omega), Nat.add_sub_cancel_left]
    exact hsize _
  · rw [if_neg (by omega), if_neg (by omega), if_neg (by omega), if_neg (by omega),
      Nat.add_sub_cancel_left]
    exact hsize _

/-! ## What `Kind` finds -/

theorem kind_cached {s : Stream} {k : Kind} (h : s.kind = some k) :
    s.Kind = (s, k, s.size, s.kinderr) := by
  unfold Stream.Kind
  rw [h]

theorem kind_read {s : Stream} (h : s.kind = none) (hend : s.stack.head? ≠ some 0) :
    ∃ s' k size err, s.readKind = (s', k, size, err) ∧
      s.Kind.1.stack = s'.stack ∧ s.Kind.1.kind = some k ∧ s.Kind.1.size = size ∧
      s.Kind.1.kinderr = s.Kind.2.2.2 ∧ s.Kind.2 = (k, size, match err with
          | some e => some e
          | none => s'.checkSize s.stack.head? size) := by
  rcases hread : s.readKind with ⟨s', k, size, err⟩
  refine ⟨s', k, size, err, rfl, ?_⟩
  unfold Stream.Kind
  simp only [h, if_neg hend, hread, true_and]
  all_goals rfl

/-- An element whose header fits into the list: its size is checked. -/
theorem kind_checks {s : Stream} {limit header content : Nat}
    (h : s.ElementAhead limit header content) (hheader : header ≤ limit) :
    ∃ s' : Stream, s.Kind.2.2.2 = s'.checkSize (some limit) content := by
  obtain ⟨hkind, hlimit, hpos, k, b, head, rest, hhead, hr, rfl⟩ := h
  obtain ⟨s', hread⟩ := readKind_of_visible hhead hr (fun limit' h => by
    rw [hlimit, Option.some.injEq] at h
    omega)
  refine ⟨s', ?_⟩
  unfold Stream.Kind
  simp only [hkind, hlimit, Option.some.injEq, if_neg hpos.ne', hread]

/-- An element that does not fit is refused, if its content or its header alone does not. -/
theorem kind_refuses {s : Stream} {limit header content : Nat}
    (h : s.ElementAhead limit header content) (hnot : ¬ (header ≤ limit ∧ content ≤ limit)) :
    s.Kind.2.2.2 = some .elemTooLarge := by
  rcases Nat.lt_or_ge limit header with hlong | hfits
  · obtain ⟨hkind, hlimit, hpos, k, b, head, rest, hhead, hr, rfl⟩ := h
    have herr := readKind_too_long hhead hr hlimit hpos hlong
    unfold Stream.Kind
    simp only [hkind, hlimit, Option.some.injEq, if_neg hpos.ne', herr]
  · obtain ⟨s', hcheck⟩ := kind_checks h hfits
    rw [hcheck, Stream.checkSize, Option.any_some, if_pos (decide_eq_true (by omega))]

/-- An element that does not fit although its content and its header do is not refused with
that error. -/
theorem kind_overlaps {s : Stream} {limit header content : Nat}
    (h : s.ElementAhead limit header content) (hheader : header ≤ limit)
    (hcontent : content ≤ limit) : s.Kind.2.2.2 ≠ some .elemTooLarge := by
  obtain ⟨s', hcheck⟩ := kind_checks h hheader
  rw [hcheck, Stream.checkSize, Option.any_some, decide_eq_false (by omega),
    if_neg Bool.false_ne_true]
  split <;> simp

/-- The size of the value ahead is not above what is left of the list. -/
def Cached (s : Stream) : Prop :=
  ∀ limit, s.kind = some .list → s.kinderr = none → s.stack.head? = some limit → s.size ≤ limit

/-- `Kind` lowers the limit of the list at most; if no element overlaps, the size it finds is
not above the limit that is left. -/
theorem kind_accounts {s : Stream} (hover : ¬ Overlaps s) (hs : Cached s) :
    Lower s.stack s.Kind.1.stack ∧ Cached s.Kind.1 := by
  rcases hkind : s.kind with _ | k
  swap
  · rw [kind_cached hkind]
    exact ⟨lower_refl _, hs⟩
  by_cases hend : s.stack.head? = some 0
  · rw [kind_at_end hkind hend]
    exact ⟨lower_refl _, hs⟩
  obtain ⟨s', k, size, err, hread, hstack, hkind', hsize, herr, hout⟩ := kind_read hkind hend
  constructor
  · rw [hstack]
    have hsim := sim_readKind s
    rw [hread] at hsim
    generalize s.bounded.readKind = out at hsim
    rcases hsim with ⟨_, _, hlower⟩ | hlower
    · exact hlower
    · exact hlower
  · intro limit _ hnone hlimit
    rw [herr, hout] at hnone
    rw [hsize]
    rcases err with _ | e
    swap
    · simp at hnone
    obtain ⟨head, b, rest, hhead, hr, hfits, hs'⟩ := readKind_visible hread
    rw [hstack, hs', head?_modifyHead, Option.map_eq_some_iff] at hlimit
    obtain ⟨limit', hlimit', rfl⟩ := hlimit
    have hheader := hfits limit' hlimit'
    have hcontent : size ≤ limit' := by
      by_contra hlt
      simp only [Stream.checkSize, hlimit', Option.any_some, decide_eq_true_eq] at hnone
      rw [if_pos (by omega)] at hnone
      simp at hnone
    by_contra hlt
    apply hover
    have hpos := header_length_pos hhead
    exact ⟨limit', head.length, size, ⟨hkind, hlimit', by omega, k, b, head, rest, hhead, hr, rfl⟩,
      hheader, hcontent, by omega⟩

/-! ## One operation -/

theorem rearmed_kind (s : Stream) : Rearmed s { s with kind := none } := ⟨rfl, lower_refl _⟩

/-- The operations on strings leave the stream as `Kind` does, or read on from there. -/
def Continues (s s' : Stream) : Prop := s' = s.Kind.1 ∨ Rearmed s.Kind.1 s'

theorem continues_bytes (s : Stream) : Continues s s.Bytes.1 := by
  unfold Continues Stream.Bytes
  rcases s.Kind with ⟨s₁, k, size, _ | e⟩
  swap
  · exact .inl rfl
  rcases k with _ | _ | _
  · exact .inr (rearmed_kind s₁)
  · right
    have h := rearmed_readFull s₁ size
    simp only
    generalize s₁.readFull size = out at h ⊢
    rcases out with ⟨s₂, e | b⟩
    · exact h
    · simp only
      split
      · exact h
      · exact h
  · exact .inl rfl

theorem continues_readBytes (s : Stream) (len : Nat) : Continues s (s.ReadBytes len).1 := by
  unfold Continues Stream.ReadBytes
  rcases s.Kind with ⟨s₁, k, size, _ | e⟩
  swap
  · exact .inl rfl
  rcases k with _ | _ | _
  · simp only
    split
    · exact .inl rfl
    · exact .inr (rearmed_kind s₁)
  · simp only
    split
    · exact .inl rfl
    right
    have h := rearmed_readFull s₁ len
    generalize s₁.readFull len = out at h ⊢
    rcases out with ⟨s₂, e | b⟩
    · exact h
    · simp only
      split
      · exact h
      · exact h
  · exact .inl rfl

theorem continues_raw (s : Stream) : Continues s s.Raw.1 := by
  unfold Continues Stream.Raw
  rcases s.Kind with ⟨s₁, k, size, _ | e⟩
  swap
  · exact .inl rfl
  have h := rearmed_readFull s₁ size
  rcases k with _ | _ | _
  · exact .inr (rearmed_kind s₁)
  · right
    simp only
    generalize s₁.readFull size = out at h ⊢
    rcases out with ⟨s₂, e | b⟩
    · exact h
    · exact h
  · right
    simp only
    generalize s₁.readFull size = out at h ⊢
    rcases out with ⟨s₂, e | b⟩
    · exact h
    · exact h

theorem continues_uint (s : Stream) (maxbits : Nat) : Continues s (s.uint maxbits).1 := by
  unfold Continues Stream.uint
  rcases s.Kind with ⟨s₁, k, size, _ | e⟩
  swap
  · exact .inl rfl
  rcases k with _ | _ | _
  · simp only
    split
    · exact .inl rfl
    · exact .inr (rearmed_kind s₁)
  · simp only
    split
    · exact .inl rfl
    right
    have h := rearmed_readUint s₁ size
    generalize s₁.readUint size = out at h ⊢
    rcases out with ⟨s₂, e | v⟩
    · cases e <;> exact h
    · simp only
      split
      · exact h
      · exact h
  · exact .inl rfl

theorem continues_bool (s : Stream) : Continues s s.Bool.1 := by
  have h := continues_uint s 8
  unfold Stream.Bool
  generalize s.uint 8 = out at h ⊢
  rcases out with ⟨s₁, e | _ | _ | v⟩
  · exact h
  · exact h
  · exact h
  · exact h

theorem continues_readInteger (s : Stream) (max : Option Nat) :
    Continues s (s.readInteger max).1 := by
  unfold Continues Stream.readInteger
  rcases s.Kind with ⟨s₁, k, size, _ | e⟩
  swap
  · exact .inl rfl
  rcases k with _ | _ | _
  · exact .inr (rearmed_kind s₁)
  · simp only
    split
    · exact .inr (rearmed_kind s₁)
    split
    · exact .inl rfl
    right
    have h := rearmed_readFull s₁ size
    generalize s₁.readFull size = out at h ⊢
    rcases out with ⟨s₂, e | b⟩
    · exact h
    · simp only
      split
      · exact h
      · exact h
  · exact .inl rfl

/-- The limits are not above the declared sizes, and the size of the value ahead is not above
the limit of its list. -/
structure Accounted (t : Tracked) : Prop where
  declared : List.Forall₂ (· ≤ ·) t.stream.stack t.declared
  cached : Cached t.stream

theorem Lower.forall₂ {stack stack' declared : List Nat} (h : Lower stack stack')
    (hd : List.Forall₂ (· ≤ ·) stack declared) : List.Forall₂ (· ≤ ·) stack' declared := by
  obtain ⟨n, rfl⟩ := h
  rcases hd with _ | ⟨hle, hd⟩
  · exact .nil
  · exact .cons (le_trans (Nat.sub_le _ _) hle) hd

theorem Continues.accounted {s s' : Stream} {declared : List Nat} (h : Continues s s')
    (hover : ¬ Overlaps s) (ht : Accounted ⟨s, declared⟩) : Accounted ⟨s', declared⟩ := by
  obtain ⟨hlower, hcached⟩ := kind_accounts hover ht.cached
  have hkind := hlower.forall₂ ht.declared
  rcases h with rfl | ⟨hrearmed, hlower'⟩
  · exact ⟨hkind, hcached⟩
  · refine ⟨hlower'.forall₂ hkind, ?_⟩
    intro limit hlist
    simp [hrearmed] at hlist

/-- The value that `Kind` reports is the one that is kept. -/
theorem kind_kept {s s' : Stream} {k : Kind} {size : Nat} (h : s.Kind = (s', k, size, none)) :
    s'.kind = some k ∧ s'.size = size ∧ s'.kinderr = none := by
  rcases hkind : s.kind with _ | k'
  · by_cases hend : s.stack.head? = some 0
    · rw [kind_at_end hkind hend] at h
      simp at h
    obtain ⟨_, k', size', err, -, -, hk, hsize, herr, hout⟩ := kind_read hkind hend
    rw [h] at hk hsize herr hout
    simp only [Prod.mk.injEq] at hout
    obtain ⟨rfl, rfl, -⟩ := hout
    exact ⟨hk, hsize, herr⟩
  · rw [kind_cached hkind] at h
    simp only [Prod.mk.injEq] at h
    obtain ⟨rfl, rfl, rfl, hnone⟩ := h
    exact ⟨hkind, rfl, hnone⟩

theorem sub64_le {a b : Nat} (h : b ≤ a) : sub64 a b ≤ a := by
  unfold sub64
  omega

theorem accounted_list {s : Stream} {declared : List Nat} (hover : ¬ Overlaps s)
    (ht : Accounted ⟨s, declared⟩) : Accounted (Tracked.step ⟨s, declared⟩ .List) := by
  obtain ⟨hlower, hcached⟩ := kind_accounts hover ht.cached
  have hkind := hlower.forall₂ ht.declared
  unfold Tracked.step Stream.exec Stream.List
  rcases hk : s.Kind with ⟨s₁, k, size, _ | e⟩
  swap
  · rw [hk] at hkind hcached
    exact ⟨hkind, hcached⟩
  obtain ⟨hlist, hsize, hnone⟩ := kind_kept hk
  rw [hk] at hkind hcached
  rcases k with _ | _ | _
  · exact ⟨hkind, hcached⟩
  · exact ⟨hkind, hcached⟩
  · -- the inner list is taken off the outer one
    refine ⟨.cons le_rfl ?_, fun _ h => by simp at h⟩
    simp only at hkind hcached ⊢
    generalize hstack : s₁.stack = stack at hkind ⊢
    rcases hkind with _ | ⟨hle, hrest⟩
    · exact .nil
    rename_i limit _ _ _
    have hfits : size ≤ limit := by
      rw [← hsize]
      exact hcached limit hlist hnone (by rw [hstack]; rfl)
    exact .cons ((sub64_le hfits).trans hle) hrest

theorem accounted_listEnd {s : Stream} {declared : List Nat} (ht : Accounted ⟨s, declared⟩) :
    Accounted (Tracked.step ⟨s, declared⟩ .ListEnd) := by
  have hd := ht.declared
  have hcached := ht.cached
  unfold Tracked.step Stream.exec Stream.ListEnd
  simp only at hd hcached ⊢
  rcases hstack : s.stack with _ | ⟨limit, stack⟩
  · exact ⟨ht.declared, hcached⟩
  simp only
  split
  · exact ⟨ht.declared, hcached⟩
  · rw [hstack] at hd
    rcases hd with _ | ⟨hle, hrest⟩
    exact ⟨hrest, fun _ h => by simp at h⟩

/-- An operation keeps the accounts, if no element overlaps. -/
theorem accounted_step {t : Tracked} (op : StreamOp) (hover : ¬ Overlaps t.stream)
    (ht : Accounted t) : Accounted (t.step op) := by
  cases op with
  | Kind => exact Continues.accounted (.inl rfl) hover ht
  | List => exact accounted_list hover ht
  | ListEnd => exact accounted_listEnd ht
  | Bytes => exact (continues_bytes _).accounted hover ht
  | ReadBytes len => exact (continues_readBytes _ len).accounted hover ht
  | Raw => exact (continues_raw _).accounted hover ht
  | Uint64 => exact (continues_uint _ 64).accounted hover ht
  | Uint32 => exact (continues_uint _ 32).accounted hover ht
  | Uint16 => exact (continues_uint _ 16).accounted hover ht
  | Uint8 => exact (continues_uint _ 8).accounted hover ht
  | Bool => exact (continues_bool _).accounted hover ht
  | BigInt => exact (continues_readInteger _ none).accounted hover ht
  | ReadUint256 => exact (continues_readInteger _ (some 32)).accounted hover ht
  | MoreDataInList => exact ht

/-! ## Runs -/

theorem accounted_start (start : Start) : Accounted ⟨start.stream, []⟩ := by
  rcases start with ⟨r, inputLimit, sized⟩ | ⟨r, len, sized⟩
  · exact ⟨.nil, fun _ h => by simp [Start.stream, resetStream] at h⟩
  · exact ⟨.nil, fun _ _ _ h => by simp [Start.stream, resetStream] at h⟩

theorem run_concat (start : Start) (ops : List StreamOp) (op : StreamOp) :
    start.run (ops ++ [op]) = (start.run ops).step op := by
  unfold Start.run
  rw [foldl_append]
  rfl

/-- Operations keep the accounts, if no element overlaps on the way. -/
theorem accounted_run (start : Start) (ops : List StreamOp)
    (hover : ∀ before, before <+: ops → ¬ Overlaps (start.run before).stream) :
    Accounted (start.run ops) := by
  induction ops using reverseRecOn with
  | nil => exact accounted_start start
  | append_singleton ops op ih =>
    rw [run_concat]
    apply accounted_step
    · exact hover ops (prefix_append ops [op])
    · exact ih fun before h => hover before (h.trans (prefix_append ops [op]))

theorem Accounted.inOrder {t : Tracked} (ht : Accounted t) (hover : ¬ Overlaps t.stream) :
    InOrder t := by
  refine ⟨ht.declared, ?_, ?_⟩
  · intro limit header content h hlarge
    apply kind_refuses h
    rintro ⟨hheader, hcontent⟩
    exact hover ⟨limit, header, content, h, hheader, hcontent, hlarge⟩
  · intro s' size limit h hlimit
    obtain ⟨hlist, hsize, hnone⟩ := kind_kept h
    have hcached := (kind_accounts hover ht.cached).2
    rw [h] at hcached
    rw [← hsize]
    exact hcached limit hlist hnone hlimit

/-- Over every input and all operations: the accounts are in order in every state on the way
exactly when in none of them the element ahead overlaps the end of its list. -/
theorem stream_inOrder_iff (start : Start) (ops : List StreamOp) :
    (∀ before, before <+: ops → InOrder (start.run before)) ↔
      ∀ before, before <+: ops → ¬ Overlaps (start.run before).stream := by
  constructor
  · rintro h before hbefore ⟨limit, header, content, hahead, hheader, hcontent, hlarge⟩
    exact kind_overlaps hahead hheader hcontent
      ((h before hbefore).refused limit header content hahead hlarge)
  · intro hover before hbefore
    exact (accounted_run start before fun b hb => hover b (hb.trans hbefore)).inOrder
      (hover before hbefore)

/-- A list of two bytes that holds the header of a list of two bytes: `List` succeeds on both,
and the outer list has `2 ^ 64 - 1` bytes left. -/
theorem stream_overlap :
    ((Start.NewStream [0xC2, 0xC2, 0x80, 0x80] 0 true).run [.List, .List]).stream.stack =
        [2, 2 ^ 64 - 1] ∧
      ((Start.NewStream [0xC2, 0xC2, 0x80, 0x80] 0 true).run [.List, .List]).declared = [2, 2] ∧
      ¬ InOrder ((Start.NewStream [0xC2, 0xC2, 0x80, 0x80] 0 true).run [.List, .List]) ∧
      ¬ InOrder ((Start.NewStream [0xC2, 0xC2, 0x80, 0x80] 0 true).run [.List]) := by
  have hstack : ((Start.NewStream [0xC2, 0xC2, 0x80, 0x80] 0 true).run [.List, .List]).stream.stack =
      [2, 2 ^ 64 - 1] := by decide
  have hdeclared : ((Start.NewStream [0xC2, 0xC2, 0x80, 0x80] 0 true).run [.List, .List]).declared =
      [2, 2] := by decide
  refine ⟨hstack, hdeclared, ?_, ?_⟩
  · intro h
    have hd := h.declared
    rw [hstack, hdeclared] at hd
    simp at hd
  · -- the header of the inner list is not refused
    intro h
    have hkind : ((Start.NewStream [0xC2, 0xC2, 0x80, 0x80] 0 true).run [.List]).stream.Kind.2 =
        (.list, 2, none) := by decide
    have hrefused := h.refused 2 1 2 ⟨by decide, by decide, by decide, .list, 0, [0xC2], [0x80, 0x80],
      .list (by decide), by decide, by decide⟩ (by decide)
    rw [hkind] at hrefused
    simp at hrefused

end GoEthereum.Rlp

import GoEthereum.Rlp.Integers

/-!
# The encoder buffer

`rlp/encbuffer.go` keeps the headers of lists apart from the data: `list` notes where a list
starts, `listEnd` computes its size from the running totals, and the output is put together
afterwards. Three functions do that: `makeBytes` copies it into a slice, `writeTo` hands it to
a writer piece by piece, and the `encReader` of `EncodeToReader` copies as much of the pieces
as fits into the slices it is given. A header is encoded into a scratch buffer that the reader
keeps between calls, so a piece that did not fit refers to it.

What the buffer should hold is said by a stack of payloads, one for each open list.
-/

namespace GoEthereum.Rlp

open List

variable {buf w : EncBuffer} {ps : List Bytes} {indices : List Nat}

/-! ## Writing -/

/-- The operations on the buffer; `listEnd` closes the list opened last. -/
inductive EncOp where
  | writeBytes (b : Bytes)
  | writeUint64 (i : UInt64)
  | writeBigInt (i : Nat)
  | writeUint256 (z : BitVec 256)
  | Write (b : Bytes)
  | list
  | listEnd

namespace EncBuffer

/-- `Write`: the bytes as they are. -/
def Write (buf : EncBuffer) (b : Bytes) : EncBuffer := { buf with str := buf.str ++ b }

/-- An operation, with the indices of the open lists. -/
def apply : EncBuffer × List Nat → EncOp → Option (EncBuffer × List Nat)
  | (buf, indices), .writeBytes b => some (buf.writeBytes b, indices)
  | (buf, indices), .writeUint64 i => some (buf.writeUint64 i.toNat, indices)
  | (buf, indices), .writeBigInt i => some (buf.writeBigInt i, indices)
  | (buf, indices), .writeUint256 z => some (buf.writeUint256 z.toNat, indices)
  | (buf, indices), .Write b => some (buf.Write b, indices)
  | (buf, indices), .list =>
    let (buf, index) := buf.list
    some (buf, index :: indices)
  | (_, []), .listEnd => none
  | (buf, index :: indices), .listEnd => some (buf.listEnd index, indices)

/-- Operations from an empty buffer on. -/
def applyAll (ops : List EncOp) : Option (EncBuffer × List Nat) :=
  ops.foldlM apply (.reset, [])

/-- `writeTo`: the slices that are written, in order. -/
def writeTo (buf : EncBuffer) : List Listhead → (strpos : Nat) → List Bytes
  | [], strpos => if strpos < buf.str.length then [buf.str.drop strpos] else []
  | head :: heads, strpos =>
    if strpos < head.offset then
      let piece := (buf.str.drop strpos).take (head.offset - strpos)
      piece :: head.encode :: writeTo buf heads (strpos + piece.length)
    else head.encode :: writeTo buf heads strpos

end EncBuffer

variable {op : EncOp} {ops : List EncOp}

/-! ## Reading -/

/-- A slice of one of the two arrays that the reader refers to. -/
inductive Slice where
  | str (lo hi : Nat)
  | sizebuf (lo hi : Nat)

/-- The slice without its first bytes. -/
def Slice.drop (n : Nat) : Slice → Slice
  | .str lo hi => .str (lo + n) hi
  | .sizebuf lo hi => .sizebuf (lo + n) hi

/-- `encReader`; the scratch buffer is that of the `encBuffer`. -/
structure EncReader where
  buf : Option EncBuffer   -- the buffer we're reading from. this is nil when we're at EOF.
  sizebuf : Bytes          -- auxiliary buffer for uint encoding
  lhpos : Nat              -- index of list header that we're reading
  strpos : Nat             -- current position in string buffer
  piece : Option Slice     -- next piece to be read

namespace EncReader

/-- What a slice holds at the moment. -/
def bytes (r : EncReader) : Slice → Bytes
  | .str lo hi =>
    match r.buf with
    | none => []
    | some buf => (buf.str.drop lo).take (hi - lo)
  | .sizebuf lo hi => (r.sizebuf.drop lo).take (hi - lo)

def next (r : EncReader) : EncReader × Option Slice :=
  match r.buf, r.piece with
  | none, _ => (r, none)
  | some _, some piece => (r, some piece)
  | some buf, none =>
    match buf.lheads[r.lhpos]? with
    | some head =>
      if r.strpos < head.offset then
        ({ r with strpos := head.offset }, some (.str r.strpos head.offset))
      else
        -- the header is encoded over what the scratch buffer held
        ({ r with
            lhpos := r.lhpos + 1
            sizebuf := head.encode ++ r.sizebuf.drop head.encode.length },
          some (.sizebuf 0 head.encode.length))
    | none =>
      if r.strpos < buf.str.length then
        ({ r with strpos := buf.str.length }, some (.str r.strpos buf.str.length))
      else (r, none)

/-- The loop of `Read` into a slice with room for a number of bytes: what is copied, and
whether the end was met. -/
def readLoop : Nat → EncReader → (room : Nat) → Option (EncReader × Bytes × Bool)
  | 0, _, _ => none
  | fuel + 1, r, room =>
    match r.next with
    | (r, none) => some ({ r with piece := none, buf := none }, [], true)
    | (r, some piece) =>
      let data := r.bytes piece
      let nn := min room data.length
      if nn < data.length then
        some ({ r with piece := some (piece.drop nn) }, data.take nn, false)
      else
        match readLoop fuel { r with piece := none } (room - nn) with
        | none => none
        | some (r, out, eof) => some (r, data.take nn ++ out, eof)

/-- `Read`; no piece is empty, so the size of the output bounds the rounds. -/
def Read (r : EncReader) (len : Nat) : Option (EncReader × Bytes × Bool) :=
  readLoop ((r.buf.map EncBuffer.size).getD 0 + 1) r len

/-- Reads with the given lengths until the end. -/
def readAll : Nat → (Nat → Nat) → EncReader → Option Bytes
  | 0, _, _ => none
  | fuel + 1, lens, r =>
    match r.Read (lens 0) with
    | none => none
    | some (_, out, true) => some out
    | some (r, out, false) =>
      match readAll fuel (fun i => lens (i + 1)) r with
      | none => none
      | some rest => some (out ++ rest)

end EncReader

/-- `EncodeToReader`, when the buffer is filled. -/
def EncBuffer.reader (buf : EncBuffer) (sizebuf : Bytes) : EncReader :=
  ⟨some buf, sizebuf, 0, 0, none⟩

/-! ## The payloads of the open lists -/

/-- The bytes of an operation that writes some. -/
def EncOp.out : EncOp → Option Bytes
  | .writeBytes b => some (Rlp.writeBytes b)
  | .writeUint64 i => some (writeInt i.toNat)
  | .writeBigInt i => some (writeInt i)
  | .writeUint256 z => some (writeInt z.toNat)
  | .Write b => some b
  | .list => none
  | .listEnd => none

/-- An operation on the payloads, innermost first. -/
def payloads : List Bytes → EncOp → Option (List Bytes)
  | [], _ => none
  | p :: ps, .list => some ([] :: p :: ps)
  | p :: q :: ps, .listEnd => some ((q ++ list p) :: ps)
  | p :: ps, op => op.out.map fun b => (p ++ b) :: ps

/-- The output of well-nested operations: every list is closed, and no list is closed that
was not opened. -/
def output (ops : List EncOp) : Option Bytes :=
  match ops.foldlM payloads [[]] with
  | some [out] => some out
  | _ => none

/-- An operation writes its bytes, opens a list, or closes one. -/
theorem payloads_cases {ps' : List Bytes} (h : payloads ps op = some ps') :
    (∃ p qs b, ps = p :: qs ∧ op.out = some b ∧ ps' = (p ++ b) :: qs) ∨
      (∃ p qs, ps = p :: qs ∧ op = .list ∧ ps' = [] :: p :: qs) ∨
      ∃ p q qs, ps = p :: q :: qs ∧ op = .listEnd ∧ ps' = (q ++ list p) :: qs := by
  unfold payloads at h
  split at h
  · simp at h
  · rename_i p qs
    right; left
    exact ⟨p, qs, rfl, rfl, (Option.some.inj h).symm⟩
  · rename_i p q qs
    right; right
    exact ⟨p, q, qs, rfl, rfl, (Option.some.inj h).symm⟩
  · rename_i op p qs _ _
    left
    rw [Option.map_eq_some_iff] at h
    obtain ⟨b, hb, rfl⟩ := h
    exact ⟨p, qs, b, rfl, hb, rfl⟩

/-- The bytes of all payloads, which an operation does not take away. -/
def total (ps : List Bytes) : Nat := (ps.map length).sum

theorem total_le {ps' : List Bytes} (h : payloads ps op = some ps') : total ps ≤ total ps' := by
  rcases payloads_cases h with ⟨p, qs, b, rfl, -, rfl⟩ | ⟨p, qs, rfl, -, rfl⟩ |
    ⟨p, q, qs, rfl, -, rfl⟩
  · simp [total]
  · simp [total]
  · have := lt_list_length p
    simp only [total, map_cons, sum_cons, length_append]
    omega

theorem total_le_all : ∀ {ps ps' : List Bytes},
    ops.foldlM payloads ps = some ps' → total ps ≤ total ps' := by
  induction ops with
  | nil =>
    intro ps ps' h
    rw [Option.some.inj h]
  | cons op ops ih =>
    intro ps ps' h
    simp only [foldlM_cons, Option.bind_eq_bind, Option.bind_eq_some_iff] at h
    obtain ⟨ps₁, hop, hops⟩ := h
    exact (total_le hop).trans (ih hops)

/-! ## The buffer of open lists -/

/-- A buffer whose open lists hold the payloads: the data of each list was written after its
header was noted. -/
inductive Open : EncBuffer → List Nat → List Bytes → Prop where
  | outermost {w : EncBuffer} {p : Bytes} : Written .reset w p → Open w [] [p]
  | inner {w w' : EncBuffer} {indices : List Nat} {p : Bytes} {ps : List Bytes} :
      Open w indices ps → Written w.list.1 w' p → Open w' (w.list.2 :: indices) (p :: ps)

theorem written_refl (w : EncBuffer) : Written w w [] := by
  have := written_str w []
  rwa [append_nil] at this

/-- Data that is written goes to the innermost payload. -/
theorem Open.write {w' : EncBuffer} {p b : Bytes} (h : Open w indices (p :: ps))
    (hw : Written w w' b) : Open w' indices ((p ++ b) :: ps) := by
  rcases h with h | ⟨hopen, h⟩
  · exact .outermost (h.trans hw)
  · exact .inner hopen (h.trans hw)

/-- The list that is closed becomes data of the list around it. -/
theorem Open.close {index : Nat} {p q : Bytes} (h : Open w (index :: indices) (p :: q :: ps))
    (hlen : p.length < 2 ^ 64) : Open (w.listEnd index) indices ((q ++ list p) :: ps) := by
  rcases h with _ | ⟨hopen, h⟩
  exact hopen.write (written_list h hlen)

theorem Open.length (h : Open w indices ps) : ps.length = indices.length + 1 := by
  induction h with
  | outermost h => rfl
  | inner hopen h ih => simp [ih]

/-- The writers append their bytes to the data. -/
theorem written_out {b : Bytes} (h : op.out = some b) (indices : List Nat) :
    ∃ w', EncBuffer.apply (w, indices) op = some (w', indices) ∧ Written w w' b := by
  rcases op with b' | i | i | z | b' | _ | _
  · rw [← Option.some.inj h]
    exact ⟨_, rfl, written_str w _⟩
  · rw [← Option.some.inj h]
    refine ⟨_, rfl, ?_⟩
    rw [writeUint64_eq w i.toNat_lt]
    exact written_str w _
  · rw [← Option.some.inj h]
    refine ⟨_, rfl, ?_⟩
    rw [writeBigInt_eq]
    exact written_str w _
  · rw [← Option.some.inj h]
    refine ⟨_, rfl, ?_⟩
    rw [writeUint256_eq w z.isLt]
    exact written_str w _
  · rw [← Option.some.inj h]
    exact ⟨_, rfl, written_str w _⟩
  · simp [EncOp.out] at h
  · simp [EncOp.out] at h

/-- One operation. -/
theorem Open.apply {w : EncBuffer} {indices : List Nat} {ps ps' : List Bytes} {op : EncOp}
    (h : Open w indices ps) (hop : payloads ps op = some ps') (hlen : total ps < 2 ^ 64) :
    ∃ w' indices', EncBuffer.apply (w, indices) op = some (w', indices') ∧
      Open w' indices' ps' := by
  rcases payloads_cases hop with ⟨p, qs, b, rfl, hb, rfl⟩ | ⟨p, qs, rfl, rfl, rfl⟩ |
    ⟨p, q, qs, rfl, rfl, rfl⟩
  · obtain ⟨w', hw', hwritten⟩ := written_out hb indices
    exact ⟨w', indices, hw', h.write hwritten⟩
  · exact ⟨w.list.1, w.list.2 :: indices, rfl, .inner h (written_refl _)⟩
  · have hlength := h.length
    rcases indices with _ | ⟨index, indices⟩
    · simp at hlength
    refine ⟨w.listEnd index, indices, rfl, h.close ?_⟩
    simp only [total, map_cons, sum_cons] at hlen
    omega

/-- All operations. -/
theorem Open.applyAll : ∀ {w : EncBuffer} {indices : List Nat}
    {ps ps' : List Bytes}, Open w indices ps → ops.foldlM payloads ps = some ps' →
    total ps' < 2 ^ 64 →
    ∃ w' indices', ops.foldlM EncBuffer.apply (w, indices) = some (w', indices') ∧
      Open w' indices' ps' := by
  induction ops with
  | nil =>
    intro w indices ps ps' h hops _
    rw [← Option.some.inj hops]
    exact ⟨w, indices, rfl, h⟩
  | cons op ops ih =>
    intro w indices ps ps' h hops hlen
    simp only [foldlM_cons, Option.bind_eq_bind, Option.bind_eq_some_iff] at hops
    obtain ⟨ps₁, hop, hops⟩ := hops
    have hle := total_le hop
    have hle' := total_le_all hops
    obtain ⟨w₁, indices₁, hw₁, hopen⟩ := h.apply hop (by omega)
    obtain ⟨w', indices', hw', hopen'⟩ := ih hopen hops hlen
    refine ⟨w', indices', ?_, hopen'⟩
    rw [foldlM_cons, hw₁]
    exact hw'

/-- A buffer that is filled: its headers stand at their places in the data, and put in they
give the output. -/
structure Filled (buf : EncBuffer) (out : Bytes) : Prop where
  placed : Placed buf.str.length buf.lheads 0
  copied : EncBuffer.copyTo buf.str buf.lheads 0 = out
  size : buf.size = out.length

theorem Written.filled {out : Bytes} (h : Written .reset w out) : Filled w out := by
  obtain ⟨str, heads, hstr, hheads, hsize, hplaced, hout⟩ := h
  have hzero : EncBuffer.reset.size = 0 := rfl
  rw [map_shift_reset] at hheads
  have hstr' : w.str = str := hstr
  have hheads' : w.lheads = heads := hheads
  constructor
  · rw [hstr', hheads']
    exact hplaced
  · rw [hstr', hheads']
    exact hout
  · rw [hsize, hzero, Nat.zero_add]

/-- Well-nested operations fill the buffer with their output. -/
theorem applyAll_filled {out : Bytes} (h : output ops = some out) (hlen : out.length < 2 ^ 63) :
    ∃ buf, EncBuffer.applyAll ops = some (buf, []) ∧ Filled buf out := by
  have hops : ops.foldlM payloads [[]] = some [out] := by
    unfold output at h
    split at h
    · rename_i out' hout'
      rw [hout', Option.some.inj h]
    · simp at h
  obtain ⟨buf, indices, hbuf, hopen⟩ := Open.applyAll (.outermost (written_refl .reset)) hops (by
    simp only [total, map_cons, map_nil, sum_cons, sum_nil]
    omega)
  rcases hopen with hwritten | ⟨hopen, -⟩
  · exact ⟨buf, hbuf, hwritten.filled⟩
  · have := hopen.length
    simp at this

/-! ## The outputs -/

theorem Filled.makeBytes {out : Bytes} (h : Filled buf out) : buf.makeBytes = out := by
  rw [EncBuffer.makeBytes]
  simp only [h.copied, h.size, Nat.sub_self, take_length, replicate_zero, append_nil]

/-- The slices that are written make up the output from a position on. -/
theorem writeTo_flatten (buf : EncBuffer) : ∀ {heads : List Listhead} {strpos : Nat},
    Placed buf.str.length heads strpos →
    (buf.writeTo heads strpos).flatten = EncBuffer.copyTo buf.str heads strpos
  | [], strpos, _ => by
    rw [EncBuffer.writeTo, EncBuffer.copyTo]
    split
    · simp
    · rename_i h
      rw [drop_of_length_le (by omega)]
      rfl
  | head :: heads, strpos, h => by
    rw [EncBuffer.writeTo]
    have hlen : ((buf.str.drop strpos).take (head.offset - strpos)).length =
        head.offset - strpos := by
      have := h.2.le
      rw [length_take, length_drop]
      omega
    have hpos : strpos + (head.offset - strpos) = head.offset := Nat.add_sub_cancel' h.1
    rw [EncBuffer.copyTo_cons h]
    split
    · simp only [hlen, hpos, flatten_cons, writeTo_flatten buf h.2, append_assoc]
    next hlt =>
    have heq : strpos = head.offset := by
      have := h.1
      omega
    subst heq
    simp only [Nat.sub_self, take_zero, nil_append, flatten_cons, writeTo_flatten buf h.2]

/-! ## The reader -/

namespace EncReader

/-- The piece that is left of the last call. -/
def pending (r : EncReader) : Bytes := (r.piece.map r.bytes).getD []

/-- A reader with a part of the output before it. -/
structure Reading (r : EncReader) (buf : EncBuffer) (rest : Bytes) : Prop where
  source : r.buf = some buf
  placed : Placed buf.str.length (buf.lheads.drop r.lhpos) r.strpos
  piece : ∀ p, r.piece = some p → r.bytes p ≠ []
  left : r.pending ++ EncBuffer.copyTo buf.str (buf.lheads.drop r.lhpos) r.strpos = rest

theorem bytes_drop (r : EncReader) (p : Slice) (n : Nat) :
    r.bytes (p.drop n) = (r.bytes p).drop n := by
  rcases p with ⟨lo, hi⟩ | ⟨lo, hi⟩
  · unfold bytes Slice.drop
    rcases r.buf with _ | buf
    · simp
    · simp only [drop_take, drop_drop, Nat.sub_sub]
  · simp only [bytes, Slice.drop, drop_take, drop_drop, Nat.sub_sub]

/-- The next piece is not empty, and the output goes on behind it; the reader is still
reading when the piece is taken. -/
theorem next_cases {r : EncReader} {rest : Bytes} (h : Reading r buf rest) :
    (rest = [] ∧ r.next = (r, none)) ∨
      ∃ r' p tail, r.next = (r', some p) ∧ r'.bytes p ≠ [] ∧ rest = r'.bytes p ++ tail ∧
        Reading { r' with piece := none } buf tail := by
  have hleft := h.left
  rcases hpiece : r.piece with _ | p
  swap
  · -- what did not fit into the last slice
    right
    refine ⟨r, p, _, by simp [next, h.source, hpiece], h.piece p hpiece, ?_, h.source, h.placed,
      by simp, rfl⟩
    rw [← hleft, pending, hpiece]
    rfl
  rw [pending, hpiece] at hleft
  have hplaced := h.placed
  rcases hhead : buf.lheads[r.lhpos]? with _ | head
  · have hdrop : buf.lheads.drop r.lhpos = [] :=
      drop_of_length_le (getElem?_eq_none_iff.mp hhead)
    rw [hdrop] at hleft
    have htail : rest = buf.str.drop r.strpos := hleft.symm
    by_cases hlt : r.strpos < buf.str.length
    · right
      refine ⟨{ r with strpos := buf.str.length }, .str r.strpos buf.str.length, [], ?_, ?_, ?_,
        h.source, ?_, by simp, ?_⟩
      · simp [next, h.source, hpiece, hhead, hlt]
      · simp only [bytes, h.source, ne_eq, ← length_eq_zero_iff, length_take, length_drop]
        omega
      · simp [bytes, h.source, htail, take_of_length_le]
      · show Placed buf.str.length (buf.lheads.drop r.lhpos) buf.str.length
        rw [hdrop]
        exact le_refl _
      · show [] ++ EncBuffer.copyTo buf.str (buf.lheads.drop r.lhpos) buf.str.length = []
        rw [hdrop, EncBuffer.copyTo, drop_length]
        rfl
    · left
      refine ⟨?_, by simp [next, h.source, hpiece, hhead, hlt]⟩
      rw [htail, drop_of_length_le (by omega)]
  · obtain ⟨hlt, hget⟩ := List.getElem?_eq_some_iff.mp hhead
    have hdrop : buf.lheads.drop r.lhpos = head :: buf.lheads.drop (r.lhpos + 1) := by
      rw [drop_eq_getElem_cons hlt, hget]
    rw [hdrop] at hplaced hleft
    rw [EncBuffer.copyTo_cons hplaced] at hleft
    right
    by_cases hbefore : r.strpos < head.offset
    · -- string data before the header
      have hoff := hplaced.2.le
      refine ⟨{ r with strpos := head.offset }, .str r.strpos head.offset,
        EncBuffer.copyTo buf.str (head :: buf.lheads.drop (r.lhpos + 1)) head.offset, ?_, ?_, ?_,
        h.source, ?_, by simp, ?_⟩
      · simp [next, h.source, hpiece, hhead, hbefore]
      · simp only [bytes, h.source, ne_eq, ← length_eq_zero_iff, length_take, length_drop]
        omega
      · have hagain : Placed buf.str.length (head :: buf.lheads.drop (r.lhpos + 1)) head.offset :=
          ⟨le_rfl, hplaced.2⟩
        rw [← hleft, EncBuffer.copyTo_cons hagain]
        simp [bytes, h.source]
      · show Placed buf.str.length (buf.lheads.drop r.lhpos) head.offset
        rw [hdrop]
        exact ⟨le_rfl, hplaced.2⟩
      · show [] ++ EncBuffer.copyTo buf.str (buf.lheads.drop r.lhpos) head.offset = _
        rw [hdrop]
        rfl
    · -- the header itself, in the scratch buffer
      have heq : r.strpos = head.offset := by
        have := hplaced.1
        omega
      have hpos : head.encode ≠ [] := by
        have := puthead_length_pos 0xC0 0xF7 head.size
        rw [← length_pos_iff]
        exact this
      have hscratch : (head.encode ++ r.sizebuf.drop head.encode.length).take head.encode.length =
          head.encode := take_left
      refine ⟨{ r with
          lhpos := r.lhpos + 1
          sizebuf := head.encode ++ r.sizebuf.drop head.encode.length },
        .sizebuf 0 head.encode.length,
        EncBuffer.copyTo buf.str (buf.lheads.drop (r.lhpos + 1)) r.strpos, ?_, ?_, ?_, h.source, ?_,
        by simp, rfl⟩
      · simp [next, h.source, hpiece, hhead, hbefore]
      · simpa [bytes] using hpos
      · rw [← hleft, heq]
        simp [bytes]
      · show Placed buf.str.length (buf.lheads.drop (r.lhpos + 1)) r.strpos
        rw [heq]
        exact hplaced.2

/-- `Read` copies what fits, and meets the end if everything does. -/
theorem readLoop_eq : ∀ (fuel room : Nat) {r : EncReader} {rest : Bytes},
    Reading r buf rest → rest.length < fuel →
    ∃ r', readLoop fuel r room = some (r', rest.take room, decide (rest.length ≤ room)) ∧
      (room < rest.length → Reading r' buf (rest.drop room))
  | 0, _, _, _, _, hfuel => absurd hfuel (Nat.not_lt_zero _)
  | fuel + 1, room, r, rest, h, hfuel => by
    rcases next_cases h with ⟨rfl, hnext⟩ | ⟨r', p, tail, hnext, hne, rfl, htail⟩
    · refine ⟨{ r with piece := none, buf := none }, by simp [readLoop, hnext], ?_⟩
      intro hlt
      simp at hlt
    have hpos : 0 < (r'.bytes p).length := length_pos_iff.mpr hne
    rw [readLoop, hnext]
    simp only
    by_cases hfit : min room (r'.bytes p).length < (r'.bytes p).length
    · -- the piece did not fit
      have hroom : room < (r'.bytes p).length := by omega
      have hmin : min room (r'.bytes p).length = room := by omega
      rw [if_pos hfit, hmin]
      refine ⟨{ r' with piece := some (p.drop room) }, ?_, ?_⟩
      · rw [take_append_of_le_length hroom.le]
        simp only [length_append, Option.some.injEq, Prod.mk.injEq, true_and]
        symm
        rw [decide_eq_false_iff_not]
        omega
      · intro _
        have hdrop := bytes_drop r' p room
        refine ⟨htail.source, htail.placed, ?_, ?_⟩
        · intro q hq
          cases hq
          show r'.bytes (p.drop room) ≠ []
          rw [hdrop, ne_eq, drop_eq_nil_iff]
          omega
        · have hrest := htail.left
          show r'.bytes (p.drop room) ++ _ = _
          rw [hdrop, drop_append_of_le_length hroom.le, ← hrest]
          rfl
    · have hroom : (r'.bytes p).length ≤ room := by omega
      have hmin : min room (r'.bytes p).length = (r'.bytes p).length := by omega
      rw [length_append] at hfuel
      obtain ⟨r'', hloop, hread⟩ :=
        readLoop_eq fuel (room - (r'.bytes p).length) htail (by omega)
      rw [if_neg hfit, hmin]
      simp only [hloop]
      refine ⟨r'', ?_, ?_⟩
      · rw [take_length, take_append, take_of_length_le hroom]
        simp only [length_append, Option.some.injEq, Prod.mk.injEq, true_and, decide_eq_decide]
        omega
      · intro hlt
        rw [length_append] at hlt
        rw [drop_append, drop_of_length_le hroom, nil_append]
        exact hread (by omega)

/-- Reads of any positive lengths give the output. -/
theorem readAll_eq : ∀ (fuel : Nat) {lens : Nat → Nat} {r : EncReader}
    {rest : Bytes}, Reading r buf rest → rest.length < fuel → rest.length ≤ buf.size →
    (∀ i, 0 < lens i) → readAll fuel lens r = some rest
  | 0, _, _, _, _, hfuel, _, _ => absurd hfuel (Nat.not_lt_zero _)
  | fuel + 1, lens, r, rest, h, hfuel, hsize, hlens => by
    have hrounds : rest.length < (r.buf.map EncBuffer.size).getD 0 + 1 := by
      rw [h.source]
      exact Nat.lt_succ_of_le hsize
    obtain ⟨r', hread, hreading⟩ := readLoop_eq _ (lens 0) h hrounds
    rw [readAll, Read, hread]
    by_cases hend : rest.length ≤ lens 0
    · simp [hend]
    have hlen : (rest.drop (lens 0)).length < rest.length := by
      have := hlens 0
      rw [length_drop]
      omega
    have hrest := readAll_eq fuel (hreading (by omega)) (by omega) (by omega)
      (fun i => hlens (i + 1))
    simp only [hend, decide_false, hrest, take_append_drop]

end EncReader

/-- Whatever the well-nested operations, the size of the buffer is the length of their output,
and each of the three ways to get it gives that output. -/
theorem encBuffer_output (ops : List EncOp) (out : Bytes) (h : output ops = some out)
    (hlen : out.length < 2 ^ 63) :
    ∃ buf, EncBuffer.applyAll ops = some (buf, []) ∧ buf.size = out.length ∧
      buf.makeBytes = out ∧ (buf.writeTo buf.lheads 0).flatten = out ∧
      ∀ (sizebuf : Bytes) (lens : Nat → Nat), (∀ i, 0 < lens i) →
        EncReader.readAll (out.length + 1) lens (buf.reader sizebuf) = some out := by
  obtain ⟨buf, hbuf, hfilled⟩ := applyAll_filled h hlen
  refine ⟨buf, hbuf, hfilled.size, hfilled.makeBytes, ?_, ?_⟩
  · rw [writeTo_flatten buf hfilled.placed, hfilled.copied]
  · intro sizebuf lens hlens
    have hreading : EncReader.Reading (buf.reader sizebuf) buf out :=
      ⟨rfl, hfilled.placed, fun p hp => by simp [EncBuffer.reader] at hp, hfilled.copied⟩
    exact EncReader.readAll_eq _ hreading (Nat.lt_succ_self _) hfilled.size.ge hlens

/-- Two lists in a list, with an integer between them. -/
theorem encBuffer_output_nested :
    ∃ buf, EncBuffer.applyAll [.list, .list, .writeBytes [7, 8], .listEnd, .writeUint64 300, .list,
        .listEnd, .listEnd] = some (buf, []) ∧
      buf.makeBytes = [0xC8, 0xC3, 0x82, 7, 8, 0x82, 1, 0x2C, 0xC0] ∧
      EncReader.readAll 10 (fun _ => 2) (buf.reader []) =
        some [0xC8, 0xC3, 0x82, 7, 8, 0x82, 1, 0x2C, 0xC0] := by
  obtain ⟨buf, hbuf, -, hmake, -, hread⟩ := encBuffer_output
    [.list, .list, .writeBytes [7, 8], .listEnd, .writeUint64 300, .list, .listEnd, .listEnd]
    [0xC8, 0xC3, 0x82, 7, 8, 0x82, 1, 0x2C, 0xC0] (by decide) (by decide)
  exact ⟨buf, hbuf, hmake, hread [] (fun _ => 2) (fun _ => by decide)⟩

end GoEthereum.Rlp

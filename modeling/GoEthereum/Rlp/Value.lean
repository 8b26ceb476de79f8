import GoEthereum.Rlp.Encode

/-!
# Encoding of items

An item is a byte string or a list of items, as a Go value `[]byte` or `[]interface{}`.
`EncodeToBytes` writes it into an `encBuffer`, which keeps the list headers apart from the
other data and puts them between it at the end. What comes out is the encoding that is
defined along the item: for a list the header of the payload's size and the payload.
-/

namespace GoEthereum.Rlp

open List

/-- A byte string or a list of items. -/
inductive Value where
  | bytes (b : Bytes)
  | list (items : List Value)

/-! ## The buffer -/

/-- `listhead`. -/
structure Listhead where
  offset : Nat   -- index of this header in string data
  size : Nat     -- total size of encoded data (including list headers)

/-- `(*listhead).encode`. -/
def Listhead.encode (head : Listhead) : Bytes := puthead 0xC0 0xF7 head.size

/-- `encBuffer`. -/
structure EncBuffer where
  str : Bytes               -- string data, contains everything except list headers
  lheads : List Listhead    -- all list headers
  lhsize : Nat              -- sum of sizes of all encoded list headers

/-- The loop of `intsize`, which shifts the number out. -/
def intsizeLoop : Nat → Nat → Nat
  | 0, _ => 0
  | fuel + 1, i => if i / 256 = 0 then 1 else intsizeLoop fuel (i / 256) + 1

/-- `intsize`, of a `uint64`. -/
def intsize (i : Nat) : Nat := intsizeLoop 8 i

namespace EncBuffer

def reset : EncBuffer := ⟨[], [], 0⟩

def size (buf : EncBuffer) : Nat := buf.str.length + buf.lhsize

def writeBytes (buf : EncBuffer) (b : Bytes) : EncBuffer :=
  { buf with str := buf.str ++ Rlp.writeBytes b }

/-- `list`: the buffer and the index of the new header. -/
def list (buf : EncBuffer) : EncBuffer × Nat :=
  ({ buf with lheads := buf.lheads ++ [⟨buf.str.length, buf.lhsize⟩] }, buf.lheads.length)

def listEnd (buf : EncBuffer) (index : Nat) : EncBuffer :=
  match buf.lheads[index]? with
  | none => buf
  | some lh =>
    let size := buf.size - lh.offset - lh.size
    { buf with
      lheads := buf.lheads.set index { lh with size := size }
      lhsize := buf.lhsize + if size < 56 then 1 else 1 + intsize size }

/-- The loop of `copyTo`. -/
def copyTo (str : Bytes) : List Listhead → (strpos : Nat) → Bytes
  | [], strpos => str.drop strpos
  | head :: heads, strpos =>
    let piece := (str.drop strpos).take (head.offset - strpos)
    piece ++ head.encode ++ copyTo str heads (strpos + piece.length)

/-- `makeBytes`: the output is copied into a slice of the buffer's size. -/
def makeBytes (buf : EncBuffer) : Bytes :=
  let out := copyTo buf.str buf.lheads 0
  out.take buf.size ++ replicate (buf.size - out.length) 0

end EncBuffer

mutual

/-- The writer of an item: `writeBytes` for a byte string, that of `makeSliceWriter` for a
list. -/
def writeItem : Value → EncBuffer → EncBuffer
  | .bytes b, w => w.writeBytes b
  | .list [], w => { w with str := w.str ++ [0xC0] }
  | .list (item :: items), w =>
    let (w, listOffset) := w.list
    (writeItems items (writeItem item w)).listEnd listOffset

/-- The loop of `makeSliceWriter`. -/
def writeItems : List Value → EncBuffer → EncBuffer
  | [], w => w
  | item :: items, w => writeItems items (writeItem item w)

end

theorem writeItem_list (item : Value) (items : List Value) (w : EncBuffer) :
    writeItem (.list (item :: items)) w =
      (writeItems items (writeItem item w.list.1)).listEnd w.list.2 := by
  rw [writeItem]

def EncodeToBytes (v : Value) : Bytes := (writeItem v .reset).makeBytes

/-! ## The encoding along the item -/

mutual

/-- The encoding of an item. -/
def Value.enc : Value → Bytes
  | .bytes b => writeBytes b
  | .list items => Rlp.list (Value.encs items)

/-- The encodings of items, one after the other. -/
def Value.encs : List Value → Bytes
  | [] => []
  | item :: items => Value.enc item ++ Value.encs items

end

theorem length_enc_pos (v : Value) : 0 < v.enc.length := by
  cases v with
  | bytes b =>
    rw [Value.enc]
    exact length_pos_iff.mpr (writeBytes_ne_nil b)
  | list items =>
    rw [Value.enc]
    exact length_pos_iff.mpr (list_ne_nil _)

theorem list_nil : list [] = [0xC0] := by decide

/-! ## Sizes -/

theorem intsizeLoop_eq : ∀ (fuel n : Nat), n ≠ 0 → n < 256 ^ fuel →
    intsizeLoop fuel n = (intBytes fuel n).length
  | 0, n, hn, h => by
    rw [pow_zero] at h
    omega
  | fuel + 1, n, hn, h => by
    have hdiv : n / 256 < 256 ^ fuel := by
      rw [pow_succ] at h
      exact Nat.div_lt_of_lt_mul (by omega)
    rw [intsizeLoop, intBytes, if_neg hn, length_append, length_singleton]
    by_cases hz : n / 256 = 0
    · rw [if_pos hz, hz]
      cases fuel with
      | zero => rfl
      | succ fuel => rfl
    · rw [if_neg hz, intsizeLoop_eq fuel _ hz hdiv]

theorem length_puthead (s l : Nat) {n : Nat} (h : n < 2 ^ 64) :
    (puthead s l n).length = if n < 56 then 1 else 1 + intsize n := by
  unfold puthead
  split
  · rfl
  · rename_i hn
    rw [intsize, intsizeLoop_eq 8 n (by omega) (by norm_num at h ⊢; exact h), length_cons,
      putint, Nat.add_comm]

/-! ## Putting the headers in -/

/-- Headers at places of string data, in order from a position on. -/
def Placed (len : Nat) : List Listhead → Nat → Prop
  | [], pos => pos ≤ len
  | head :: heads, pos => pos ≤ head.offset ∧ Placed len heads head.offset

theorem Placed.le {len : Nat} : ∀ {heads : List Listhead} {pos : Nat},
    Placed len heads pos → pos ≤ len
  | [], _, h => h
  | _ :: _, _, h => h.1.trans h.2.le

/-- A header for data that stands after other data. -/
def Listhead.shift (d : Nat) (head : Listhead) : Listhead :=
  { head with offset := d + head.offset }

namespace EncBuffer

theorem copyTo_cons {str : Bytes} {head : Listhead} {heads : List Listhead} {pos : Nat}
    (h : Placed str.length (head :: heads) pos) :
    copyTo str (head :: heads) pos =
      (str.drop pos).take (head.offset - pos) ++ head.encode ++ copyTo str heads head.offset := by
  have hlen : ((str.drop pos).take (head.offset - pos)).length = head.offset - pos := by
    have := h.2.le
    rw [length_take, length_drop]
    omega
  have hpos : pos + (head.offset - pos) = head.offset := Nat.add_sub_cancel' h.1
  rw [copyTo]
  simp only [hlen, hpos]

theorem placed_shift {d len : Nat} : ∀ {heads : List Listhead} {pos : Nat},
    Placed len heads pos → Placed (d + len) (heads.map (Listhead.shift d)) (d + pos)
  | [], _, h => Nat.add_le_add_left h d
  | _ :: _, _, h => ⟨Nat.add_le_add_left h.1 d, placed_shift h.2⟩

theorem placed_append {len len' : Nat} (hlen : len ≤ len') {heads' : List Listhead} :
    ∀ {heads : List Listhead} {pos : Nat}, Placed len heads pos → Placed len' heads' len →
      Placed len' (heads ++ heads') pos
  | [], pos, h, h' => by
    cases heads' with
    | nil => exact h.trans hlen
    | cons head heads' => exact ⟨h.trans h'.1, h'.2⟩
  | _ :: _, _, h, h' => ⟨h.1, placed_append hlen h.2 h'⟩

theorem copyTo_shift (a : Bytes) {b : Bytes} : ∀ {heads : List Listhead} {pos : Nat},
    Placed b.length heads pos →
      copyTo (a ++ b) (heads.map (Listhead.shift a.length)) (a.length + pos) = copyTo b heads pos
  | [], pos, _ => by
    rw [map_nil, copyTo, copyTo, drop_length_add_append]
  | head :: heads, pos, h => by
    have hplaced := @placed_shift a.length _ _ _ h
    rw [← length_append] at hplaced
    have hsub : (head.shift a.length).offset - (a.length + pos) = head.offset - pos :=
      Nat.add_sub_add_left a.length head.offset pos
    rw [map_cons, copyTo_cons hplaced, copyTo_cons h, hsub, drop_length_add_append]
    exact congrArg _ (copyTo_shift a h.2)

/-- Data with its headers after data with its headers. -/
theorem copyTo_append {a b : Bytes} {heads' : List Listhead} (h' : Placed b.length heads' 0) :
    ∀ {heads : List Listhead} {pos : Nat}, Placed a.length heads pos →
      copyTo (a ++ b) (heads ++ heads'.map (Listhead.shift a.length)) pos =
        copyTo a heads pos ++ copyTo b heads' 0
  | [], pos, h => by
    have hpos : pos ≤ a.length := h
    rw [nil_append, copyTo]
    cases heads' with
    | nil => rw [map_nil, copyTo, copyTo, drop_append_of_le_length hpos, drop_zero]
    | cons head heads' =>
      have hshift := @placed_shift a.length _ _ _ h'
      rw [← length_append] at hshift
      have hplaced : Placed (a ++ b).length ((head :: heads').map (Listhead.shift a.length))
          pos := ⟨hpos.trans hshift.1, hshift.2⟩
      have hsub : (head.shift a.length).offset - pos = (a.drop pos).length + head.offset := by
        rw [length_drop, Listhead.shift]
        simp only
        omega
      rw [map_cons] at hplaced ⊢
      rw [copyTo_cons hplaced, copyTo_cons h', hsub, drop_append_of_le_length hpos,
        take_length_add_append, Nat.sub_zero, drop_zero]
      simp only [append_assoc, append_cancel_left_eq]
      exact congrArg _ (copyTo_shift a h'.2)
  | head :: heads, pos, h => by
    have hlen : a.length ≤ (a ++ b).length := by
      rw [length_append]
      exact Nat.le_add_right _ _
    have hshift := @placed_shift a.length _ _ _ h'
    rw [← length_append, Nat.add_zero] at hshift
    have hplaced := placed_append hlen h hshift
    have hoff : head.offset ≤ a.length := h.2.le
    have htake : ((a ++ b).drop pos).take (head.offset - pos) =
        (a.drop pos).take (head.offset - pos) := by
      rw [drop_append_of_le_length (h.1.trans hoff), take_append_of_le_length]
      rw [length_drop]
      omega
    rw [cons_append] at hplaced ⊢
    rw [copyTo_cons hplaced, copyTo_cons h, htake, copyTo_append h' h.2]
    simp only [append_assoc]

end EncBuffer

/-! ## What the writers append -/

/-- A buffer after data with its headers was written to it. -/
def Written (w w' : EncBuffer) (out : Bytes) : Prop :=
  ∃ str heads, w'.str = w.str ++ str ∧
    w'.lheads = w.lheads ++ heads.map (Listhead.shift w.str.length) ∧
    w'.size = w.size + out.length ∧ Placed str.length heads 0 ∧
    EncBuffer.copyTo str heads 0 = out

theorem size_str (w : EncBuffer) (out : Bytes) :
    ({ w with str := w.str ++ out } : EncBuffer).size = w.size + out.length := by
  rw [EncBuffer.size, EncBuffer.size]
  simp only [length_append]
  omega

theorem written_str (w : EncBuffer) (out : Bytes) :
    Written w { w with str := w.str ++ out } out := by
  exact ⟨out, [], rfl, (append_nil _).symm, size_str w out, Nat.zero_le _, rfl⟩

theorem Written.trans {w w₁ w₂ : EncBuffer} {a b : Bytes} (h : Written w w₁ a)
    (h' : Written w₁ w₂ b) : Written w w₂ (a ++ b) := by
  obtain ⟨str, heads, hstr, hheads, hsize, hplaced, hout⟩ := h
  obtain ⟨str', heads', hstr', hheads', hsize', hplaced', hout'⟩ := h'
  refine ⟨str ++ str', heads ++ heads'.map (Listhead.shift str.length), ?_, ?_, ?_, ?_, ?_⟩
  · rw [hstr', hstr, append_assoc]
  · have hshift : ∀ head : Listhead, head.shift w₁.str.length =
        (head.shift str.length).shift w.str.length := by
      intro head
      rw [hstr, length_append]
      simp only [Listhead.shift, Nat.add_assoc]
    rw [hheads', hheads, map_append, map_map, append_assoc]
    congr 2
    exact map_congr_left fun head _ => hshift head
  · rw [hsize', hsize, length_append, Nat.add_assoc]
  · have hshift := @EncBuffer.placed_shift str.length _ _ _ hplaced'
    rw [Nat.add_zero, ← length_append] at hshift
    refine EncBuffer.placed_append ?_ hplaced hshift
    rw [length_append]
    exact Nat.le_add_right _ _
  · rw [EncBuffer.copyTo_append hplaced' hplaced, hout, hout']

/-- `list`, a payload, `listEnd`. -/
theorem written_list {w w' : EncBuffer} {payload : Bytes} (h : Written w.list.1 w' payload)
    (hlen : payload.length < 2 ^ 64) :
    Written w (w'.listEnd w.list.2) (list payload) := by
  obtain ⟨str, heads, hstr, hheads, hsize, hplaced, hout⟩ := h
  have hhead : w'.lheads[w.list.2]? = some ⟨w.str.length, w.lhsize⟩ := by
    rw [hheads, EncBuffer.list]
    simp only [append_assoc]
    rw [getElem?_append_right le_rfl, Nat.sub_self]
    rfl
  have hpayload : w'.size - w.str.length - w.lhsize = payload.length := by
    have hw : w.list.1.size = w.str.length + w.lhsize := rfl
    omega
  have hset : w'.lheads.set w.list.2 ⟨w.str.length, payload.length⟩ =
      w.lheads ++ (⟨0, payload.length⟩ :: heads).map (Listhead.shift w.str.length) := by
    rw [hheads, EncBuffer.list]
    simp only [append_assoc]
    rw [set_append_right _ _ le_rfl, Nat.sub_self]
    rfl
  refine ⟨str, ⟨0, payload.length⟩ :: heads, ?_, ?_, ?_, ⟨le_rfl, hplaced⟩, ?_⟩
  · rw [EncBuffer.listEnd, hhead]
    exact hstr
  · rw [EncBuffer.listEnd, hhead]
    simp only [hpayload]
    exact hset
  · have hw : w.list.1.size = w.size := rfl
    rw [EncBuffer.listEnd, hhead, list, length_append, length_puthead _ _ hlen]
    simp only [hpayload]
    rw [EncBuffer.size] at hsize ⊢
    simp only
    omega
  · have hcons : Placed str.length (⟨0, payload.length⟩ :: heads) 0 := ⟨le_rfl, hplaced⟩
    rw [EncBuffer.copyTo_cons hcons, hout]
    rfl

theorem size_le_listEnd (w : EncBuffer) (index : Nat) : w.size ≤ (w.listEnd index).size := by
  rw [EncBuffer.listEnd]
  split
  · exact le_rfl
  · rw [EncBuffer.size, EncBuffer.size]
    simp only
    omega

mutual

theorem size_le_writeItem : ∀ (v : Value) (w : EncBuffer), w.size ≤ (writeItem v w).size
  | .bytes b, w => by
    rw [writeItem, EncBuffer.writeBytes, size_str]
    exact Nat.le_add_right _ _
  | .list [], w => by
    rw [writeItem, size_str]
    exact Nat.le_add_right _ _
  | .list (item :: items), w => by
    rw [writeItem_list]
    calc w.size = w.list.1.size := rfl
      _ ≤ (writeItem item w.list.1).size := size_le_writeItem item _
      _ ≤ (writeItems items (writeItem item w.list.1)).size := size_le_writeItems items _
      _ ≤ _ := size_le_listEnd _ _

theorem size_le_writeItems : ∀ (items : List Value) (w : EncBuffer),
    w.size ≤ (writeItems items w).size
  | [], w => le_rfl
  | item :: items, w => by
    rw [writeItems]
    exact (size_le_writeItem item w).trans (size_le_writeItems items _)

end

mutual

/-- The writer of an item appends its encoding, when that or the buffer stays in memory. -/
theorem written_item : ∀ (v : Value) (w : EncBuffer),
    (writeItem v w).size < 2 ^ 63 ∨ w.size + v.enc.length < 2 ^ 63 → Written w (writeItem v w) v.enc
  | .bytes b, w, _ => by
    rw [writeItem, Value.enc]
    exact written_str w _
  | .list [], w, _ => by
    rw [writeItem, Value.enc, Value.encs, list_nil]
    exact written_str w _
  | .list (item :: items), w, h => by
    have hpayload : Written w.list.1 (writeItems items (writeItem item w.list.1))
        (Value.encs (item :: items)) := by
      have hsize : w.list.1.size = w.size := rfl
      have hlt := lt_list_length (Value.encs (item :: items))
      have hmono := size_le_writeItems items (writeItem item w.list.1)
      rw [writeItem_list, Value.enc] at h
      rw [Value.encs] at h hlt ⊢
      have hend := size_le_listEnd (writeItems items (writeItem item w.list.1)) w.list.2
      have hfirst := written_item item w.list.1 (by
        rw [length_append] at hlt
        rcases h with h | h
        · exact .inl (by omega)
        · exact .inr (by omega))
      refine hfirst.trans (written_items items _ ?_)
      obtain ⟨_, _, _, _, hsize', _, _⟩ := hfirst
      rw [length_append] at hlt
      rcases h with h | h
      · exact .inl (by omega)
      · exact .inr (by omega)
    rw [writeItem_list, Value.enc]
    refine written_list hpayload ?_
    obtain ⟨_, _, _, _, hsize, _, _⟩ := hpayload
    have hend := size_le_listEnd (writeItems items (writeItem item w.list.1)) w.list.2
    have hlt := lt_list_length (Value.encs (item :: items))
    rw [writeItem_list, Value.enc] at h
    rcases h with h | h
    · omega
    · omega

theorem written_items : ∀ (items : List Value) (w : EncBuffer),
    (writeItems items w).size < 2 ^ 63 ∨ w.size + (Value.encs items).length < 2 ^ 63 →
      Written w (writeItems items w) (Value.encs items)
  | [], w, _ => by
    refine ⟨[], [], (append_nil _).symm, (append_nil _).symm, rfl, le_rfl, rfl⟩
  | item :: items, w, h => by
    have hmono := size_le_writeItems items (writeItem item w)
    rw [writeItems, Value.encs, length_append] at h
    rw [writeItems, Value.encs]
    have hfirst := written_item item w (by
      rcases h with h | h
      · exact .inl (by omega)
      · exact .inr (by omega))
    refine hfirst.trans (written_items items _ ?_)
    obtain ⟨_, _, _, _, hsize, _, _⟩ := hfirst
    rcases h with h | h
    · exact .inl h
    · exact .inr (by omega)

end

theorem length_makeBytes (w : EncBuffer) : w.makeBytes.length = w.size := by
  rw [EncBuffer.makeBytes, length_append, length_take, length_replicate]
  omega

theorem map_shift_reset (heads : List Listhead) :
    heads.map (Listhead.shift EncBuffer.reset.str.length) = heads := by
  refine (map_congr_left fun head _ => ?_).trans (map_id heads)
  rw [Listhead.shift]
  exact congrArg (Listhead.mk · head.size) (Nat.zero_add head.offset)

/-- `EncodeToBytes` returns the encoding of the item. -/
theorem encodeToBytes_eq {v : Value}
    (h : (EncodeToBytes v).length < 2 ^ 63 ∨ v.enc.length < 2 ^ 63) :
    EncodeToBytes v = v.enc := by
  have hzero : EncBuffer.reset.size = 0 := rfl
  obtain ⟨str, heads, hstr, hheads, hsize, -, hout⟩ := written_item v .reset (by
    rw [hzero, Nat.zero_add]
    rw [EncodeToBytes, length_makeBytes] at h
    exact h)
  have hcopy : EncBuffer.copyTo (writeItem v .reset).str (writeItem v .reset).lheads 0 = v.enc := by
    rw [hstr, hheads, map_shift_reset]
    exact hout
  rw [hzero, Nat.zero_add] at hsize
  rw [EncodeToBytes, EncBuffer.makeBytes]
  simp only [hcopy, hsize, Nat.sub_self, take_length, replicate_zero, append_nil]

end GoEthereum.Rlp

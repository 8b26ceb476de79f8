import GoEthereum.Rawdb.Freezer

/-!
# Where the fields of the index end

The index has two bytes for the number of a file and four for the number of removed items.
A table that outgrows either of them no longer returns what was appended. A read of more
items, or with a larger limit, than memory can be reserved for panics.
-/

namespace GoEthereum.Rawdb

open FreezerTable List

variable {sn : Snappy} {t : FreezerTable} {zs ps : List (Nat × Bytes)} {s : Sequence}

variable {b : FreezerTableBatch} {i n : Nat} {z z' : Nat × Bytes}

/-! ## Batches that succeed -/

/-- A batch without compression succeeds. -/
theorem Buffered.appendAll_ok (hsn : sn.Lossless) {blobs : List (Bytes × Bool × Bool)}
    (h : Buffered b zs ps) (hholds : Holds sn b.t zs ps s) (hwrite : b.t.readonly = false)
    (hsnappy : b.t.noSnappy = true) (hsized : ∀ x ∈ blobs, x.1.length ≤ b.t.maxFileSize)
    (hhead : b.t.headId + (blobs.map fun x => x.1.length).sum + 1 < 2 ^ 32) :
    ∃ b' zs' ps', Rawdb.appendAll sn blobs b = .ok b' ∧ Buffered b' zs' ps' ∧
      Holds sn b'.t zs' ps' { s with items := s.items ++ blobs.map Prod.fst } ∧
      Kept b.t b'.t ∧ b'.t.readonly = false ∧
      b'.t.headId ≤ b.t.headId + (blobs.map fun x => x.1.length).sum := by
  induction blobs generalizing b zs ps s with
  | nil =>
    rw [map_nil, append_nil]
    exact ⟨b, zs, ps, rfl, h, hholds, ⟨rfl, rfl, rfl, rfl⟩, hwrite, Nat.le_add_right _ _⟩
  | cons x blobs ih =>
    obtain ⟨blob, due, due'⟩ := x
    have hsum : (((blob, due, due') :: blobs).map fun x => x.1.length).sum =
        blob.length + (blobs.map fun x => x.1.length).sum := sum_cons
    rw [hsum] at hhead ⊢
    have hraw := h.AppendRaw hholds hsn (hsized _ mem_cons_self) (by omega) due due'
    rw [Rawdb.appendAll]
    generalize b.AppendRaw sn due due' b.curItem blob = r at hraw ⊢
    cases r with
    | error err => cases (hraw hsnappy).symm.trans hwrite
    | ok b₁ =>
    obtain ⟨⟨zs₁, ps₁, hb₁, hholds₁⟩, hkept, hid, hread⟩ := hraw
    have hid₁ : b₁.t.headId ≤ b.t.headId + blob.length := hid hsnappy
    obtain ⟨b', zs', ps', hall, hb', hholds', hkept', hwrite', hid'⟩ := ih hb₁ hholds₁
      (hread.trans hwrite)
      (hkept.noSnappy.trans hsnappy)
      (fun x hx => by rw [hkept.maxFileSize]; exact hsized x (mem_cons_of_mem _ hx))
      (by omega)
    refine ⟨b', zs', ps', hall, hb', ?_, hkept.trans hkept', hwrite', by omega⟩
    rw [append_assoc] at hholds'
    exact hholds'

/-- A batch of items, none of them committed for the time that has passed. -/
def batch (blobs : List Bytes) : Event := .append (blobs.map fun b => (b, false, false)) false

/-- A new table without compression, filled by one batch. -/
theorem filled (hsn : sn.Lossless) {maxFileSize : Nat} (hmax : maxFileSize < 2 ^ 32)
    {blobs : List Bytes} (hsized : ∀ b ∈ blobs, b.length ≤ maxFileSize)
    (htotal : (blobs.map length).sum + 1 < 2 ^ 32) :
    ∃ t₀ t zs, newTable ⟨none, none, fun _ => none⟩ maxFileSize true false = .ok t₀ ∧
      (batch blobs).run sn t₀ = .ok t ∧ Laid t zs [] ∧ zs.map Prod.snd = blobs ∧
      t.itemOffset = 0 ∧ t.itemHidden = 0 ∧ t.noSnappy = true ∧ t.maxFileSize = maxFileSize ∧
      t.readonly = false ∧ t.headId ≤ (blobs.map length).sum := by
  obtain ⟨t₀, hnew, hlaid, hoffset, hhidden, hsnappy, hmaxSize, hid, hwrite⟩ :=
    newTable_empty hmax true
  have hlengths : ((blobs.map fun b => (b, false, false)).map
      fun x : Bytes × Bool × Bool => x.1.length) = blobs.map length := by
    rw [map_map]
    rfl
  have hfst : (blobs.map fun b => (b, false, false)).map Prod.fst = blobs := by
    rw [map_map]
    exact map_id _
  have hsized' : ∀ x ∈ blobs.map fun b => (b, false, false),
      x.1.length ≤ t₀.newBatch.t.maxFileSize := by
    intro x hx
    obtain ⟨b, hb, rfl⟩ := mem_map.mp hx
    show b.length ≤ t₀.maxFileSize
    rw [hmaxSize]
    exact hsized b hb
  have hhead : t₀.newBatch.t.headId + ((blobs.map fun b => (b, false, false)).map
      fun x : Bytes × Bool × Bool => x.1.length).sum + 1 < 2 ^ 32 := by
    show t₀.headId + _ + 1 < _
    rw [hid, hlengths]
    omega
  obtain ⟨b, zs, ps, happend, hb, hholds, hkept, hwrite', hid'⟩ :=
    (Buffered.newBatch hlaid).appendAll_ok hsn (Holds.newTable hoffset hhidden) hwrite
      hsnappy hsized' hhead
  have hcommitted := hb.commit false
  cases hcommit : b.commit false with
  | error err =>
    rw [hcommit] at hcommitted
    cases hcommitted.symm.trans hwrite'
  | ok b' =>
  rw [hcommit] at hcommitted
  obtain ⟨hb', hkept', hidb, hread, -⟩ := hcommitted
  have hoff : b.t.itemOffset = 0 := hkept.itemOffset.trans hoffset
  have hns : b.t.noSnappy = true := hkept.noSnappy.trans hsnappy
  refine ⟨t₀, b'.t, zs ++ ps, hnew, ?_, hb'.laid, ?_, hkept'.itemOffset.trans hoff, ?_,
    hkept'.noSnappy.trans hns, ?_, hread.trans hwrite', ?_⟩
  · rw [batch, Event.run, happend]
    dsimp only
    rw [hcommit]
  · have hstored := hholds.stored
    rw [hoff, hns, hfst] at hstored
    have heq : List.Forall₂ Eq blobs ((zs ++ ps).map Prod.snd) :=
      List.Forall₂.imp (fun _ _ h => Option.some.inj h) hstored
    rw [forall₂_eq_eq_eq] at heq
    exact heq.symm
  · exact hkept'.itemHidden.trans (hkept.itemHidden.trans hhidden)
  · exact hkept'.maxFileSize.trans (hkept.maxFileSize.trans hmaxSize)
  · rw [hlengths] at hid'
    rw [hidb]
    refine hid'.trans ?_
    show t₀.headId + _ ≤ _
    rw [hid, Nat.zero_add]

/-! ## File numbers -/

/-- Items of one file that follow each other share its room. -/
theorem contents_adjacent (hz : zs[i]? = some z) (hz' : zs[i + 1]? = some z') (hfile : z.1 = z'.1) :
    z.2.length + z'.2.length ≤ (contents z.1 zs).length := by
  obtain ⟨hlt, hget⟩ := List.getElem?_eq_some_iff.mp hz
  obtain ⟨hlt', hget'⟩ := List.getElem?_eq_some_iff.mp hz'
  have hsplit : zs = zs.take i ++ z :: z' :: zs.drop (i + 2) := by
    rw [← hget, ← hget', ← drop_eq_getElem_cons, ← drop_eq_getElem_cons, take_append_drop]
  conv_rhs => rw [hsplit]
  rw [contents_append, contents_cons, contents_cons, if_pos rfl, if_pos hfile.symm,
    length_append, length_append, length_append]
  omega

theorem Steps.adjacent {f g : Nat} (h : Steps f zs g) (hz : zs[i]? = some z)
    (hz' : zs[i + 1]? = some z') : z'.1 = z.1 ∨ z'.1 = z.1 + 1 := by
  induction zs generalizing f i with
  | nil => cases hz
  | cons y zs ih =>
    cases i with
    | zero =>
      cases hz
      cases zs with
      | nil => cases hz'
      | cons y' zs =>
        cases hz'
        exact h.2.1.imp id And.left
    | succ i => exact ih h.2 hz hz'

/-- Where no two items share a file, the files are numbered as the items are. -/
theorem Laid.file_per_item (h : Laid t zs []) (hsnappy : t.noSnappy = true)
    (hmax : t.maxFileSize = 1) (hone : ∀ z ∈ zs, z.2.length = 1) {z₀ : Nat × Bytes}
    (hz₀ : zs[0]? = some z₀) (hz : zs[i]? = some z) : z.1 = z₀.1 + i := by
  induction i generalizing z with
  | zero =>
    obtain rfl := Option.some.inj (hz₀.symm.trans hz)
    rfl
  | succ i ih =>
    have hlt : i < zs.length := by
      have hlt := (List.getElem?_eq_some_iff.mp hz).1
      omega
    have hbefore := getElem?_eq_getElem hlt
    have hnumber := ih hbefore
    rcases h.steps_nil.adjacent hbefore hz with hsame | hnext
    · have hshare := contents_adjacent hbefore hz hsame.symm
      have hroom := h.room_nil hsnappy zs[i].1
      rw [hone _ (getElem_mem hlt), hone z (mem_of_getElem? hz)] at hshare
      omega
    · omega

/-- The contents of the file of an item that has a file of its own. -/
theorem Laid.contents_own (h : Laid t zs []) (hsnappy : t.noSnappy = true)
    (hmax : t.maxFileSize = 1) (hz : zs[i]? = some z) (hone : z.2.length = 1) :
    contents z.1 zs = z.2 := by
  obtain ⟨hlt, hget⟩ := List.getElem?_eq_some_iff.mp hz
  have hsplit : zs = zs.take i ++ z :: zs.drop (i + 1) := by
    rw [← hget, ← drop_eq_getElem_cons, take_append_drop]
  have hroom := h.room_nil hsnappy z.1
  rw [hsplit, contents_append, contents_cons, if_pos rfl] at hroom ⊢
  rw [length_append, length_append] at hroom
  rw [eq_nil_of_length_eq_zero (l := contents z.1 (zs.take i)) (by omega),
    eq_nil_of_length_eq_zero (l := contents z.1 (zs.drop (i + 1))) (by omega),
    nil_append, append_nil]

/-- The entries that are read for the item after the last file number. -/
theorem Laid.getIndices_wrapped (h : Laid t zs []) (hoffset : t.itemOffset = 0) (hn : 0 < n)
    (hlen : zs.length = n + 1) (hsmall : n < 2 ^ 62) (hz : zs[n - 1]? = some z)
    (hz' : zs[n]? = some z') (hnext : z'.1 = z.1 + 1) (hsize : z'.2.length < 2 ^ 32) :
    ∃ o, t.getIndices n 1 = .ok [⟨z.1 % 2 ^ 16, o⟩, ⟨z'.1 % 2 ^ 16, z'.2.length⟩] := by
  obtain ⟨k, rfl⟩ := Nat.exists_eq_succ_of_ne_zero hn.ne'
  obtain ⟨m, hm, hrest, hends⟩ := ends_from h.steps_nil (k := k) (by omega)
  obtain rfl : m = z.1 := hm.last hz
  have hdrop : zs.drop (k + 1) = [z'] := by
    obtain ⟨hlt, hget⟩ := List.getElem?_eq_some_iff.mp hz'
    rw [drop_eq_getElem_cons hlt, hget, drop_of_length_le hlen.le]
  have hfrom : (k + 1 + (2 ^ 64 - 0)) % 2 ^ 64 = k + 1 := by omega
  have hread := readAt_marshalAll (⟨t.tailId, t.itemOffset⟩ :: ends t.tailId 0 zs) (k + 1) 1 (by
    rw [length_cons, ends_length]
    omega)
  rw [← h.index, drop_succ_cons, hends, hdrop] at hread
  have hentries : (⟨z.1, (contents z.1 (zs.take (k + 1))).length⟩ ::
      ends z.1 (contents z.1 (zs.take (k + 1))).length [z']).take (1 + 1) =
      [⟨z.1, (contents z.1 (zs.take (k + 1))).length⟩, ⟨z'.1, z'.2.length⟩] := by
    rw [ends, hnext, if_neg (Nat.succ_ne_self z.1), Nat.zero_add]
    rfl
  rw [hentries] at hread
  refine ⟨(contents z.1 (zs.take (k + 1))).length % 2 ^ 32, ?_⟩
  have hall := unmarshalAll_marshalAll_mod
    [⟨z.1, (contents z.1 (zs.take (k + 1))).length⟩, ⟨z'.1, z'.2.length⟩]
  rw [FreezerTable.getIndices, hoffset, hfrom, hread]
  dsimp only
  rw [show 1 + 1 = length [(⟨z.1, (contents z.1 (zs.take (k + 1))).length⟩ : IndexEntry),
    ⟨z'.1, z'.2.length⟩] from rfl, hall, map_cons, map_cons, map_nil,
    Nat.mod_eq_of_lt hsize]
  exact if_neg (Nat.succ_ne_zero k)

/-- With a file for each item, the item after the last file number is read from the file
whose number has the same two low bytes. -/
theorem Laid.Retrieve_wrapped (h : Laid t zs []) (hoffset : t.itemOffset = 0)
    (hhidden : t.itemHidden = 0) (hsnappy : t.noSnappy = true) (hmax : t.maxFileSize = 1)
    (hone : ∀ z ∈ zs, z.2.length = 1) (hn : n = 2 ^ 16) (hlen : zs.length = n + 1)
    {z₀ : Nat × Bytes} (hz₀ : zs[0]? = some z₀) (hfirst : z₀.1 < 2 ^ 16) :
    t.Retrieve sn n = .ok z₀.2 := by
  obtain ⟨z, hz⟩ : ∃ z, zs[n - 1]? = some z := ⟨_, getElem?_eq_getElem (by omega)⟩
  obtain ⟨z', hz'⟩ : ∃ z', zs[n]? = some z' := ⟨_, getElem?_eq_getElem (by omega)⟩
  have hfile := h.file_per_item hsnappy hmax hone hz₀ hz
  have hfile' := h.file_per_item hsnappy hmax hone hz₀ hz'
  have hitems := h.items
  have hsize := hone z' (mem_of_getElem? hz')
  obtain ⟨o, hindices⟩ := h.getIndices_wrapped hoffset (by omega) hlen (by omega) hz hz'
    (by omega) (by omega)
  have hwrap : z'.1 % 2 ^ 16 = z₀.1 := by omega
  have hcross : z₀.1 ≠ z.1 % 2 ^ 16 := by omega
  rw [hwrap, hsize] at hindices
  have hopen : t.tailId ≤ z₀.1 ∧ z₀.1 ≤ t.headId :=
    h.steps_nil.bounds z₀ (mem_of_getElem? hz₀)
  have hone₀ := hone z₀ (mem_of_getElem? hz₀)
  have hread : t.readData z₀.1 0 1 ⟨[], [1], 1, 0, 1⟩ = .ok ⟨z₀.2, [1], 1, 0, 1⟩ := by
    have hown : contents z₀.1 zs = [] ++ z₀.2 ++ [] := by
      rw [h.contents_own hsnappy hmax hz₀ hone₀, nil_append, append_nil]
    have hread := h.readData hopen hown ⟨[], [1], 1, 0, 1⟩
    rw [hone₀] at hread
    exact hread
  have hbounds : (⟨z.1 % 2 ^ 16, o⟩ : IndexEntry).bounds ⟨z₀.1, 1⟩ = (0, 1, z₀.1) :=
    if_pos hcross.symm
  have hloop : ∀ start, t.readLoop 0 0 [⟨z.1 % 2 ^ 16, o⟩, ⟨z₀.1, 1⟩] ⟨[], [], 0, start, 0⟩ =
      .ok ⟨z₀.2, [1], 1, 0, 1⟩ := by
    intro start
    have hleft : t.crossFile ⟨z.1 % 2 ^ 16, o⟩ ⟨z₀.1, 1⟩ ⟨[], [], 0, start, 0⟩ =
        .ok ⟨[], [], 0, 0, 0⟩ := if_pos hcross
    rw [FreezerTable.readLoop, hbounds, hleft]
    exact hread
  have hitem : t.retrieveItems n 1 0 = .ok (z₀.2, [1]) := by
    have htrim : ¬ (n + 1) % 2 ^ 64 > t.items := by omega
    rw [FreezerTable.retrieveItems, h.opened, if_neg Bool.false_ne_true, if_neg (by omega),
      if_neg htrim, if_neg (Nat.not_lt_zero maxAlloc), hindices]
    dsimp only
    rw [hloop]
  rw [FreezerTable.Retrieve, FreezerTable.RetrieveItems, hitem, hsnappy]
  show Except.ok ((z₀.2.drop 0).take 1) = _
  rw [drop_zero, take_of_length_le hone₀.le]

/-- With one file more than there are numbers, the last item is read from the first file. -/
theorem Retrieve_aliased (hsn : sn.Lossless) (hn : n = 2 ^ 16) :
    ∃ t₀ t, newTable ⟨none, none, fun _ => none⟩ 1 true false = .ok t₀ ∧
      runEvents sn [batch (replicate n [0] ++ [[1]])] t₀ = .ok t ∧
      t.Retrieve sn n = .ok [0] := by
  have hone : ∀ b ∈ replicate n ([0] : Bytes) ++ [[1]], b.length = 1 := by
    intro b hb
    rw [mem_append, mem_replicate, mem_singleton] at hb
    rcases hb with ⟨-, rfl⟩ | rfl
    · rfl
    · rfl
  have hsum : ((replicate n ([0] : Bytes) ++ [[1]]).map length).sum = n + 1 := by
    simp
  obtain ⟨t₀, t, zs, hnew, hrun, h, hblobs, hoffset, hhidden, hsnappy, hmax, -, hhead⟩ :=
    filled hsn (show 1 < 2 ^ 32 by decide) (fun b hb => (hone b hb).le) (by rw [hsum]; omega)
  have hone' : ∀ z ∈ zs, z.2.length = 1 := by
    intro z hz
    refine hone z.2 ?_
    rw [← hblobs]
    exact mem_map_of_mem hz
  have hlen : zs.length = n + 1 := by
    have hlen := congrArg length hblobs
    rw [length_map, length_append, length_replicate] at hlen
    exact hlen
  obtain ⟨z₀, hz₀⟩ : ∃ z₀, zs[0]? = some z₀ := ⟨_, getElem?_eq_getElem (by omega)⟩
  obtain ⟨z, hz⟩ : ∃ z, zs[n]? = some z := ⟨_, getElem?_eq_getElem (by omega)⟩
  have hfirst : z₀.2 = [0] := by
    have hget := congrArg (fun l => l[0]?) hblobs
    have hpos : 0 < (replicate n ([0] : Bytes)).length := by
      rw [length_replicate]
      omega
    rw [getElem?_map, hz₀, getElem?_append_left hpos, getElem?_replicate,
      if_pos (by omega)] at hget
    exact Option.some.inj hget
  -- the last file is the head
  have hlast := h.file_per_item hsnappy hmax hone' hz₀ hz
  have hle := (h.steps_nil.bounds z (mem_of_getElem? hz)).2
  rw [hsum] at hhead
  refine ⟨t₀, t, hnew, ?_, ?_⟩
  · rw [runEvents, hrun]
    rfl
  · rw [← hfirst]
    exact h.Retrieve_wrapped hoffset hhidden hsnappy hmax hone' hn hlen hz₀ (by omega)

/-! ## Removed items -/

theorem sizeNolock_ne_error (h : t.itemHidden ≤ t.itemOffset) (err : Err) :
    t.sizeNolock ≠ .error err := by
  rw [FreezerTable.sizeNolock, FreezerTable.sizeHidden, if_pos h]
  intro hsize
  cases hsize

theorem moveTail_ok {p : Nat}
    (hflushed : ¬ t.metadata.flushOffset ≤ indexEntrySize * (n - t.itemOffset))
    (hhidden : t.itemHidden ≤ n) :
    ∃ t', t.moveTail p n = .ok t' ∧ t'.itemOffset = n ∧ t'.headId = t.headId := by
  rw [FreezerTable.moveTail]
  dsimp only
  split
  · next hle => exact absurd hle hflushed
  · split
    · next err herr => exact absurd herr (sizeNolock_ne_error hhidden err)
    · exact ⟨_, rfl, rfl, rfl⟩

/-- The tail moves to the file of an item that starts it, with the items before it gone. -/
theorem Laid.truncateTail_file (h : Laid t zs []) (ha : t.Addressable) (hwrite : t.readonly = false)
    {k : Nat} (hz : zs[k]? = some z) (hz' : zs[k + 1]? = some z') (hne : z.1 ≠ z'.1)
    (hhidden : t.itemHidden < t.itemOffset + (k + 1)) :
    ∃ t', t.truncateTail (t.itemOffset + (k + 1)) = .ok t' ∧
      t'.itemOffset = t.itemOffset + (k + 1) ∧ t'.headId = t.headId := by
  have hlt := (List.getElem?_eq_some_iff.mp hz').1
  have hitems := h.items
  have hbound := h.items_lt ha
  obtain ⟨p, m, htail, hm, hpm, hafter, hfirst⟩ := h.tailFile ha hlt.le
  have hp : z'.1 = p := hfirst z' (by rw [head?_drop, hz'])
  have hlast : m = z.1 := hm.last hz
  have hle : t.tailId ≤ z.1 := hlast ▸ hm.le
  have hother : t.tailId ≠ p := by omega
  obtain ⟨size, hsize⟩ := h.sizeNolock ha
  have hlaid : Laid (t.hide (t.itemOffset + (k + 1))) zs [] :=
    h.hide hwrite ⟨Nat.le_add_right _ _, by omega⟩
  obtain ⟨j, hcount, hj, hsame, -⟩ := h.countDeleted ha hother hlt.le
    (Nat.lt_succ_of_le (Nat.le_add_left (k + 1) t.itemOffset))
  -- the item before is in another file, so that the count stops at once
  obtain rfl : j = k + 1 := by
    by_contra hshort
    refine hne ((hsame z ?_).trans hp.symm)
    refine mem_of_getElem? (i := k - j) ?_
    rw [getElem?_drop, getElem?_take, Nat.add_sub_cancel' (by omega),
      if_pos (Nat.lt_succ_self k), hz]
  have hcurrent : (t.itemOffset + (k + 1) + (2 ^ 64 - 1)) % 2 ^ 64 =
      t.itemOffset + (k + 1) - 1 := by
    omega
  rw [hcurrent] at hcount
  have hflushed : ¬ t.index.length ≤ indexEntrySize * (t.itemOffset + (k + 1) - t.itemOffset) := by
    rw [h.index, marshalAll_length, length_cons, ends_length, indexEntrySize]
    omega
  rw [FreezerTable.truncateTail, if_neg (by omega), if_neg (by omega), htail]
  dsimp only
  rw [hsize]
  dsimp only
  have hcount' : FreezerTable.countDeleted ((t.hide (t.itemOffset + (k + 1))).setFlushOffset
      (t.hide (t.itemOffset + (k + 1))).index.length).index p
      ((t.hide (t.itemOffset + (k + 1))).setFlushOffset
        (t.hide (t.itemOffset + (k + 1))).index.length).itemOffset
      (t.itemOffset + (k + 1) + 1) (t.itemOffset + (k + 1) - 1) (t.itemOffset + (k + 1)) =
        .ok (t.itemOffset + (k + 1)) := hcount
  have hbefore : ¬ (t.hide (t.itemOffset + (k + 1))).tailId > p := by
    show ¬ t.tailId > p
    omega
  rw [if_neg (by rw [hwrite]; exact Bool.false_ne_true), FreezerTable.removeHidden,
    if_neg (show ¬ (t.hide (t.itemOffset + (k + 1))).tailId = p from hother), if_neg hbefore,
    hlaid.doSync hwrite]
  dsimp only
  rw [hcount']
  exact moveTail_ok hflushed le_rfl

/-- Two items in files of their own, with empty items before and after them. -/
def padded (n : Nat) : List Bytes := replicate n [] ++ [0] :: [1] :: replicate n []

/-- The upper bits of the count of removed items are lost when the table is opened again. -/
theorem Retrieve_shifted (hsn : sn.Lossless) (hn : n = 2 ^ 32) :
    ∃ t₀ t, newTable ⟨none, none, fun _ => none⟩ 1 true false = .ok t₀ ∧
      runEvents sn [batch (padded n), .truncateTail (n + 1), .reopen false] t₀ = .ok t ∧
      t.Retrieve sn (n + 1) = .ok [] := by
  have hbefore : (replicate n ([] : Bytes)).length = n := length_replicate
  have hsum : ((padded n).map length).sum = 2 := by
    simp [padded]
  have hsized : ∀ b ∈ padded n, b.length ≤ 1 := by
    intro b hb
    rw [padded, mem_append, mem_cons, mem_cons, mem_replicate] at hb
    rcases hb with ⟨-, rfl⟩ | rfl | rfl | ⟨-, rfl⟩
    · exact Nat.zero_le _
    · exact le_rfl
    · exact le_rfl
    · exact Nat.zero_le _
  obtain ⟨t₀, t, zs, hnew, hrun, h, hblobs, hoffset, hhidden, hsnappy, hmax, hwrite, hhead⟩ :=
    filled hsn (show 1 < 2 ^ 32 by decide) hsized (by rw [hsum]; decide)
  rw [hsum] at hhead
  have hlen : zs.length = 2 * n + 2 := by
    have hlen := congrArg length hblobs
    rw [length_map, padded, length_append, length_cons, length_cons, length_replicate] at hlen
    omega
  have ha : t.Addressable := by
    refine ⟨by omega, by omega, ?_⟩
    rw [h.index, marshalAll_length, length_cons, ends_length]
    omega
  have hitem : ∀ (i : Nat) (b : Bytes), (padded n)[i]? = some b →
      ∃ z, zs[i]? = some z ∧ z.2 = b := by
    intro i b hb
    rw [← hblobs, getElem?_map] at hb
    exact Option.map_eq_some_iff.mp hb
  obtain ⟨z, hz, hzero⟩ := hitem n [0] (by
    rw [padded, getElem?_append_right hbefore.le, hbefore, Nat.sub_self]
    rfl)
  obtain ⟨z', hz', hone⟩ := hitem (n + 1) [1] (by
    rw [padded, getElem?_append_right (by omega), hbefore, Nat.add_sub_cancel_left]
    rfl)
  have hne : z.1 ≠ z'.1 := by
    intro hsame
    have hshare := contents_adjacent hz hz' hsame
    have hroom := h.room_nil hsnappy z.1
    rw [hzero, hone] at hshare
    rw [hmax] at hroom
    exact absurd (hshare.trans hroom) (by decide)
  obtain ⟨t₁, htrunc, hoffset₁, hhead₁⟩ :=
    h.truncateTail_file ha hwrite hz hz' hne (by omega)
  rcases h.truncateTail ha htrunc with ⟨hle, -⟩ | ⟨-, -, hhidden₁, hsnappy₁, hmax₁, j, hj, hj', h₁⟩
  · omega
  obtain rfl : j = n + 1 := by omega
  rw [hoffset, Nat.zero_add] at htrunc hoffset₁ hhidden₁
  have hlen₁ : (zs.drop (n + 1)).length = n + 1 := by
    rw [length_drop]
    omega
  -- of the count one is left
  obtain ⟨u, dir, hclose, hstored⟩ := h₁.Close (by rw [hhead₁]; exact ha.1)
  have hwrap : t₁.itemOffset % 2 ^ 32 = 1 := by omega
  rw [hwrap, hhidden₁] at hstored
  obtain ⟨t₂, hopen, h₂, hoffset₂, hhidden₂, hsnappy₂, -, ha₂⟩ := hstored.newTable
    (by omega) h₁.sizes_nil h₁.maxSize h₁.room_nil (by rw [hhead₁]; exact ha.1)
    (by rw [hlen₁, indexEntrySize]; omega) false
  refine ⟨t₀, t₂, hnew, ?_, ?_⟩
  · have hreopen : Event.run sn t₁ (.reopen false) = .ok t₂ := by
      rw [Event.run, hclose]
      exact hopen
    have htail : Event.run sn t (.truncateTail (n + 1)) = .ok t₁ := htrunc
    rw [runEvents, hrun]
    dsimp only
    rw [runEvents, htail]
    dsimp only
    rw [runEvents, hreopen]
    rfl
  · have hstores : List.Forall₂ (Stores sn t₂.noSnappy) ((padded n).drop (n + 1))
        ((zs.drop (n + 1)).map Prod.snd) := by
      rw [map_drop, hblobs, hsnappy₂, hsnappy₁, hsnappy]
      exact forall₂_same.mpr fun b _ => rfl
    have hlast : ((padded n).drop (n + 1))[n]? = some [] := by
      rw [getElem?_drop, padded, getElem?_append_right (by omega), hbefore,
        Nat.add_sub_cancel, getElem?_cons_succ]
      obtain ⟨m, rfl⟩ := Nat.exists_eq_succ_of_ne_zero (show n ≠ 0 by omega)
      rw [getElem?_cons_succ, getElem?_replicate, if_pos (Nat.lt_succ_self m)]
    have hread := h₂.Retrieve ha₂ hsn hstores hlast (by omega)
    rwa [hoffset₂, Nat.add_comm] at hread

/-! ## Sizes -/

/-- What is kept of the first item, if memory cannot be reserved for a read. -/
theorem Laid.RetrieveItems_makeslice (h : Laid t zs []) (ha : t.Addressable)
    (hoffset : t.itemOffset = 0) (hhidden : t.itemHidden = 0) (hne : 0 < zs.length) :
    t.RetrieveItems sn 0 (2 ^ 48) 0 = .error .makeslice ∧
      t.RetrieveItems sn 0 1 (2 ^ 48 + 1) = .error .makeslice := by
  have hitems := h.items
  constructor
  · obtain ⟨j, hread, -⟩ := @Laid.retrieveItems _ _ _ h ha 0 (2 ^ 48) 0 hne (by omega)
      (by decide) (by omega) (by decide)
    rw [hoffset] at hread
    rw [FreezerTable.RetrieveItems, hread]
    exact if_pos (by decide)
  · have hread : t.retrieveItems 0 1 (2 ^ 48 + 1) = .error .makeslice := by
      rw [FreezerTable.retrieveItems, h.opened, if_neg Bool.false_ne_true, if_neg (by omega)]
      exact if_pos (by decide)
    rw [FreezerTable.RetrieveItems, hread]

/-- A stand-in for compression that puts a byte before each item. -/
def marked : Snappy where
  encode b := if b.length + 1 < 2 ^ 32 then some (0 :: b) else none
  decode e :=
    match e with
    | [] => none
    | _ :: b => some b
  decodedLen e := e.length - 1

theorem marked_encode {b e : Bytes} (h : marked.encode b = some e) :
    b.length + 1 < 2 ^ 32 ∧ e = 0 :: b := by
  have h' : (if b.length + 1 < 2 ^ 32 then some (0 :: b) else none) = some e := h
  by_cases hlen : b.length + 1 < 2 ^ 32
  · rw [if_pos hlen] at h'
    exact ⟨hlen, (Option.some.inj h').symm⟩
  · rw [if_neg hlen] at h'
    cases h'

theorem marked_lossless : marked.Lossless := by
  constructor
  case decode =>
    intro b e h
    rw [(marked_encode h).2]
    rfl
  case decodedLen =>
    intro b e h
    rw [(marked_encode h).2]
    rfl
  case nonempty =>
    intro b e h
    rw [(marked_encode h).2]
    exact cons_ne_nil _ _
  case length =>
    intro b e h
    rw [(marked_encode h).2]
    exact (marked_encode h).1

/-- The bounds are needed: with one file too many, an item is read from the file of another;
with too many removed items, the items are shifted when the table is opened again; and a
count or a limit that is too large makes a read panic. -/
theorem freezerTable_bounds : (∃ t₀ t, newTable ⟨none, none, fun _ => none⟩ 1 true false = .ok t₀ ∧
      runEvents marked [batch (replicate (2 ^ 16) [0] ++ [[1]])] t₀ = .ok t ∧
      t.Retrieve marked (2 ^ 16) = .ok [0]) ∧
    (∃ t₀ t, newTable ⟨none, none, fun _ => none⟩ 1 true false = .ok t₀ ∧
      runEvents marked [batch (padded (2 ^ 32)), .truncateTail (2 ^ 32 + 1), .reopen false] t₀ =
        .ok t ∧ t.Retrieve marked (2 ^ 32 + 1) = .ok []) ∧
    ∃ t₀ t, newTable ⟨none, none, fun _ => none⟩ 1 true false = .ok t₀ ∧
      runEvents marked [batch [[0]]] t₀ = .ok t ∧
      t.RetrieveItems marked 0 (2 ^ 48) 0 = .error .makeslice ∧
      t.RetrieveItems marked 0 1 (2 ^ 48 + 1) = .error .makeslice := by
  refine ⟨Retrieve_aliased marked_lossless rfl, Retrieve_shifted marked_lossless rfl, ?_⟩
  have hsized : ∀ b ∈ ([[0]] : List Bytes), b.length ≤ 1 := by decide
  obtain ⟨t₀, t, zs, hnew, hrun, h, hblobs, hoffset, hhidden, -, -, -, hhead⟩ :=
    filled marked_lossless (show 1 < 2 ^ 32 by decide) hsized (by decide)
  have hlen : zs.length = 1 := by
    have hlen := congrArg length hblobs
    rw [length_map] at hlen
    exact hlen
  have ha : t.Addressable := by
    refine ⟨hhead.trans_lt (by decide), by omega, ?_⟩
    rw [h.index, marshalAll_length, length_cons, ends_length]
    omega
  refine ⟨t₀, t, hnew, ?_, h.RetrieveItems_makeslice ha hoffset hhidden (by omega)⟩
  rw [runEvents, hrun]
  rfl

/-- Three items, one of them hidden, in a table that was opened again. -/
theorem freezerTable_sequence_reopened :
    ∃ t₀ t, newTable ⟨none, none, fun _ => none⟩ 3 false false = .ok t₀ ∧
      runEvents marked [batch [[1], [], [2, 3]], .truncateTail 1, .reopen true] t₀ = .ok t ∧
      t.Retrieve marked 0 = .error .errOutOfBounds ∧ t.Retrieve marked 1 = .ok [] ∧
      t.Retrieve marked 2 = .ok [2, 3] := by
  obtain ⟨t₀, hnew, hcheck⟩ : ∃ t₀, newTable ⟨none, none, fun _ => none⟩ 3 false false = .ok t₀ ∧
      ((runEvents marked [batch [[1], [], [2, 3]], .truncateTail 1, .reopen true] t₀).isOk &&
        (runTables marked [batch [[1], [], [2, 3]], .truncateTail 1, .reopen true] t₀).all
          fun u => decide (u.headId < 2 ^ 16) && decide (u.itemOffset < 2 ^ 32) &&
            decide (u.index.length < 2 ^ 63)) = true := of_checked (by decide +kernel)
  rw [Bool.and_eq_true, all_eq_true] at hcheck
  cases hrun : runEvents marked [batch [[1], [], [2, 3]], .truncateTail 1, .reopen true] t₀ with
  | error err =>
    rw [hrun] at hcheck
    cases hcheck.1
  | ok t =>
    have ha : ∀ u ∈ runTables marked
        [batch [[1], [], [2, 3]], .truncateTail 1, .reopen true] t₀, u.Addressable := by
      intro u hu
      have hu' := hcheck.2 u hu
      rw [Bool.and_eq_true, Bool.and_eq_true, decide_eq_true_eq, decide_eq_true_eq,
        decide_eq_true_eq] at hu'
      exact ⟨hu'.1.1, hu'.1.2, hu'.2⟩
    have hsized : ∀ e ∈ [batch [[1], [], [2, 3]], .truncateTail 1, .reopen true], e.Sized 3 := by
      intro e he
      rw [mem_cons, mem_cons, mem_singleton] at he
      rcases he with rfl | rfl | rfl
      · show ∀ b ∈ [(([1] : Bytes), false, false), ([], false, false), ([2, 3], false, false)],
          b.1.length ≤ 3
        decide
      · trivial
      · trivial
    have hreads := (freezerTable_sequence marked_lossless (by decide) hnew hsized ha hrun).1
    exact ⟨t₀, t, hnew, hrun, hreads 0, hreads 1, hreads 2⟩

end GoEthereum.Rawdb

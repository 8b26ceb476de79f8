import GoEthereum.Rawdb.FreezerTable

/-!
# How items lie in the files

The items of a table that have not been removed are a list of byte strings, each with the
number of its file. The list determines the index and the data files; `Laid` says that
the files of a table are these.
-/

namespace GoEthereum.Rawdb

open List

variable {t : FreezerTable} {ps zs : List (Nat × Bytes)} {f g : Nat}

/-! ## Index files -/

/-- An entry whose numbers fit their fields. -/
def IndexEntry.Fits (e : IndexEntry) : Prop := e.filenum < 2 ^ 16 ∧ e.offset < 2 ^ 32

/-- The bytes of an index file. -/
def marshalAll (es : List IndexEntry) : Bytes := es.flatMap IndexEntry.marshal

theorem marshal_length (e : IndexEntry) : e.marshal.length = 6 := by
  rw [IndexEntry.marshal, length_append, beBytes_length, beBytes_length]

/-- What does not fit its field comes back without its upper bits. -/
theorem unmarshal_marshal_mod (e : IndexEntry) :
    IndexEntry.unmarshalBinary e.marshal = ⟨e.filenum % 2 ^ 16, e.offset % 2 ^ 32⟩ := by
  have hlen : (beBytes 2 e.filenum).length = 2 := beBytes_length 2 _
  have hlen' : (beBytes 4 e.offset).length = 4 := beBytes_length 4 _
  rw [IndexEntry.unmarshalBinary, IndexEntry.marshal, take_left' hlen, drop_left' hlen,
    take_of_length_le hlen'.le, beNat_beBytes, beNat_beBytes]
  rfl

theorem unmarshal_marshal {e : IndexEntry} (h : e.Fits) :
    IndexEntry.unmarshalBinary e.marshal = e := by
  rw [unmarshal_marshal_mod, Nat.mod_eq_of_lt h.1, Nat.mod_eq_of_lt h.2]

theorem marshalAll_append (es es' : List IndexEntry) :
    marshalAll (es ++ es') = marshalAll es ++ marshalAll es' := flatMap_append

theorem marshalAll_cons (e : IndexEntry) (es : List IndexEntry) :
    marshalAll (e :: es) = e.marshal ++ marshalAll es := flatMap_cons

theorem marshalAll_length (es : List IndexEntry) : (marshalAll es).length = es.length * 6 := by
  induction es with
  | nil => rfl
  | cons e es ih =>
    rw [marshalAll_cons, length_append, marshal_length, ih, length_cons]
    omega

theorem marshalAll_take (es : List IndexEntry) (n : Nat) :
    (marshalAll es).take (n * 6) = marshalAll (es.take n) := by
  induction n generalizing es with
  | zero =>
    rw [Nat.zero_mul, take_zero, take_zero]
    rfl
  | succ n ih =>
    cases es with
    | nil =>
      show ([] : Bytes).take _ = []
      exact take_nil
    | cons e es =>
      rw [take_succ_cons, marshalAll_cons, marshalAll_cons, ← ih, Nat.succ_mul,
        Nat.add_comm, ← marshal_length e, take_length_add_append]

theorem marshalAll_drop (es : List IndexEntry) (n : Nat) :
    (marshalAll es).drop (n * 6) = marshalAll (es.drop n) := by
  induction n generalizing es with
  | zero => rfl
  | succ n ih =>
    cases es with
    | nil =>
      show ([] : Bytes).drop _ = []
      exact drop_nil
    | cons e es =>
      rw [drop_succ_cons, marshalAll_cons, ← ih, Nat.succ_mul, Nat.add_comm,
        ← marshal_length e, drop_length_add_append]

theorem unmarshalAll_marshalAll_mod (es : List IndexEntry) :
    FreezerTable.unmarshalAll es.length (marshalAll es) =
      es.map fun e => ⟨e.filenum % 2 ^ 16, e.offset % 2 ^ 32⟩ := by
  induction es with
  | nil => rfl
  | cons e es ih =>
    have hlen : e.marshal.length = indexEntrySize := marshal_length e
    rw [length_cons, FreezerTable.unmarshalAll, marshalAll_cons, take_left' hlen,
      drop_left' hlen, unmarshal_marshal_mod, ih, map_cons]

theorem unmarshalAll_marshalAll {es : List IndexEntry} (h : ∀ e ∈ es, e.Fits) :
    FreezerTable.unmarshalAll es.length (marshalAll es) = es := by
  rw [unmarshalAll_marshalAll_mod]
  refine (map_congr_left fun e he => ?_).trans (map_id es)
  rw [Nat.mod_eq_of_lt (h e he).1, Nat.mod_eq_of_lt (h e he).2]
  rfl

/-- Reading consecutive entries. -/
theorem readAt_marshalAll (es : List IndexEntry) (pos count : Nat)
    (h : pos + (count + 1) ≤ es.length) :
    readAt (marshalAll es) (pos * indexEntrySize) ((count + 1) * indexEntrySize) =
      .ok (marshalAll ((es.drop pos).take (count + 1))) := by
  have hlen := marshalAll_length es
  rw [readAt, if_neg (by rw [indexEntrySize]; omega), if_pos (by
    rw [hlen, indexEntrySize]
    omega)]
  show Except.ok (((marshalAll es).drop (pos * 6)).take ((count + 1) * 6)) = _
  rw [marshalAll_drop, marshalAll_take]

theorem readEntry_marshalAll {es : List IndexEntry} (hfits : ∀ e ∈ es, e.Fits) {pos : Nat}
    {e : IndexEntry} (h : es[pos]? = some e) : readEntry (marshalAll es) pos = .ok e := by
  obtain ⟨hlt, rfl⟩ := List.getElem?_eq_some_iff.mp h
  have hread := readAt_marshalAll es pos 0 hlt
  have hsingle : (es.drop pos).take (0 + 1) = [es[pos]] := by
    rw [drop_eq_getElem_cons hlt]
    rfl
  rw [hsingle, Nat.zero_add, Nat.one_mul] at hread
  rw [readEntry, hread]
  show Except.ok (IndexEntry.unmarshalBinary (marshalAll [es[pos]])) = _
  have hmarshal : marshalAll [es[pos]] = es[pos].marshal := append_nil _
  rw [hmarshal, unmarshal_marshal (hfits _ (getElem_mem hlt))]

/-! ## Items in their files -/

/-- The index entries of items, after an item that ended in file `f` at offset `o`. -/
def ends : Nat → Nat → List (Nat × Bytes) → List IndexEntry
  | _, _, [] => []
  | f, o, (g, y) :: zs =>
    let o' := (if g = f then o else 0) + y.length
    ⟨g, o'⟩ :: ends g o' zs

/-- Where the last of the items ends. -/
def endState : Nat → Nat → List (Nat × Bytes) → Nat × Nat
  | f, o, [] => (f, o)
  | f, o, (g, y) :: zs => endState g ((if g = f then o else 0) + y.length) zs

/-- The contents of a file. -/
def contents (f : Nat) (zs : List (Nat × Bytes)) : Bytes :=
  (zs.filter fun z => z.1 = f).flatMap Prod.snd

/-- The files of the items go up by steps of one, from `f` to `g`, and no item that starts a
file is empty. -/
def Steps : Nat → List (Nat × Bytes) → Nat → Prop
  | f, [], g => f = g
  | f, (h, y) :: zs, g => (h = f ∨ h = f + 1 ∧ y ≠ []) ∧ Steps h zs g

theorem ends_length (f o : Nat) (zs : List (Nat × Bytes)) : (ends f o zs).length = zs.length := by
  induction zs generalizing f o with
  | nil => rfl
  | cons z zs ih =>
    show (ends _ _ zs).length + 1 = _
    rw [ih, length_cons]

theorem ends_append (f o : Nat) (zs zs' : List (Nat × Bytes)) :
    ends f o (zs ++ zs') = ends f o zs ++ ends (endState f o zs).1 (endState f o zs).2 zs' := by
  induction zs generalizing f o with
  | nil => rfl
  | cons z zs ih =>
    show _ :: ends _ _ (zs ++ zs') = _ :: (_ ++ _)
    rw [ih]
    rfl

theorem ends_take (f o n : Nat) (zs : List (Nat × Bytes)) :
    ends f o (zs.take n) = (ends f o zs).take n := by
  induction zs generalizing f o n with
  | nil =>
    rw [take_nil]
    exact take_nil.symm
  | cons z zs ih =>
    cases n with
    | zero => rfl
    | succ n =>
      show _ :: ends _ _ (zs.take n) = _ :: (ends _ _ zs).take n
      rw [ih]

theorem ends_drop (f o n : Nat) (zs : List (Nat × Bytes)) : (ends f o zs).drop n =
      ends (endState f o (zs.take n)).1 (endState f o (zs.take n)).2 (zs.drop n) := by
  have happend := ends_append f o (zs.take n) (zs.drop n)
  rw [take_append_drop] at happend
  rw [happend, ends_take]
  rcases Nat.le_total n zs.length with h | h
  · exact drop_left' (by rw [length_take, ends_length, Nat.min_eq_left h])
  rw [drop_of_length_le h]
  refine drop_of_length_le ?_
  rw [length_append, length_take, ends_length]
  show _ + 0 ≤ n
  omega

theorem contents_append (f : Nat) (zs zs' : List (Nat × Bytes)) :
    contents f (zs ++ zs') = contents f zs ++ contents f zs' := by
  rw [contents, filter_append, flatMap_append]
  rfl

theorem contents_cons (f : Nat) (z : Nat × Bytes) (zs : List (Nat × Bytes)) :
    contents f (z :: zs) = (if z.1 = f then z.2 else []) ++ contents f zs := by
  rw [contents, filter_cons]
  by_cases h : z.1 = f
  · rw [if_pos h, if_pos (decide_eq_true h)]
    rfl
  · rw [if_neg h, if_neg (by rw [decide_eq_true_eq]; exact h)]
    rfl

theorem Steps.le (h : Steps f zs g) : f ≤ g := by
  induction zs generalizing f with
  | nil => exact Nat.le_of_eq h
  | cons z zs ih =>
    have hle := ih h.2
    rcases h.1 with heq | ⟨heq, -⟩
    · omega
    · omega

theorem Steps.bounds (h : Steps f zs g) : ∀ z ∈ zs, f ≤ z.1 ∧ z.1 ≤ g := by
  induction zs generalizing f with
  | nil =>
    intro z hz
    cases hz
  | cons z zs ih =>
    intro z' hz'
    have hle := Steps.le h.2
    have hfirst : f ≤ z.1 := by
      rcases h.1 with heq | ⟨heq, -⟩
      · omega
      · omega
    rcases mem_cons.mp hz' with rfl | hz'
    · exact ⟨hfirst, hle⟩
    · have hrest := ih h.2 z' hz'
      exact ⟨hfirst.trans hrest.1, hrest.2⟩

theorem steps_append {zs' : List (Nat × Bytes)} :
    Steps f (zs ++ zs') g ↔ ∃ m, Steps f zs m ∧ Steps m zs' g := by
  induction zs generalizing f with
  | nil =>
    constructor
    · intro h
      exact ⟨f, rfl, h⟩
    · rintro ⟨m, rfl, h⟩
      exact h
  | cons z zs ih =>
    constructor
    · rintro ⟨hz, hrest⟩
      obtain ⟨m, hm, hm'⟩ := ih.mp hrest
      exact ⟨m, ⟨hz, hm⟩, hm'⟩
    · rintro ⟨m, ⟨hz, hm⟩, hm'⟩
      exact ⟨hz, ih.mpr ⟨m, hm, hm'⟩⟩

/-- A file beyond those of the items is empty. -/
theorem contents_eq_nil (h : ∀ z ∈ zs, z.1 ≠ f) : contents f zs = [] := by
  rw [contents, filter_eq_nil_iff.mpr]
  · rfl
  · intro z hz
    rw [decide_eq_true_eq]
    exact h z hz

/-- The last item ends at the end of the last file. -/
theorem Steps.endState (h : Steps f zs g) (o : Nat) :
    Rawdb.endState f o zs = (g, (if g = f then o else 0) + (contents g zs).length) := by
  induction zs generalizing f o with
  | nil =>
    cases h
    rw [if_pos rfl]
    rfl
  | cons z zs ih =>
    show Rawdb.endState z.1 ((if z.1 = f then o else 0) + z.2.length) zs = _
    rw [ih h.2, contents_cons, length_append]
    by_cases hz : g = z.1
    · rw [if_pos hz, if_pos hz.symm, hz, Nat.add_assoc]
    have hle := Steps.le h.2
    have hne : g ≠ f := by
      rcases h.1 with heq | ⟨heq, -⟩
      · omega
      · omega
    rw [if_neg hz, if_neg hne, if_neg fun heq => hz heq.symm]
    simp

/-- The entry of an item says where it ends. -/
theorem ends_getElem? (f o : Nat) {i : Nat} (h : i < zs.length) :
    (ends f o zs)[i]? = some ⟨(Rawdb.endState f o (zs.take (i + 1))).1,
      (Rawdb.endState f o (zs.take (i + 1))).2⟩ := by
  induction zs generalizing f o i with
  | nil => cases h
  | cons z zs ih =>
    cases i with
    | zero => rfl
    | succ i => exact ih _ _ (Nat.lt_of_succ_lt_succ h)

/-- An entry has the file of an item, and ends within the contents of the file. -/
theorem ends_within (h : Steps f zs g) :
    ∀ e ∈ ends f 0 zs, e.filenum ≤ g ∧ e.offset ≤ (contents e.filenum zs).length := by
  intro e he
  obtain ⟨i, hi, hget⟩ := getElem_of_mem he
  rw [ends_length] at hi
  have hsplit : zs = zs.take (i + 1) ++ zs.drop (i + 1) := (take_append_drop _ _).symm
  obtain ⟨m, hm, hrest⟩ := steps_append.mp (hsplit ▸ h)
  have hentry := ends_getElem? f 0 hi
  rw [getElem?_eq_getElem (by rw [ends_length]; exact hi), hget, hm.endState,
    ite_self, Nat.zero_add] at hentry
  cases hentry
  constructor
  · exact hrest.le
  · show (contents m (zs.take (i + 1))).length ≤ _
    conv_rhs => rw [hsplit]
    rw [contents_append, length_append]
    exact Nat.le_add_right _ _

/-- The entries from an item on, with the one before it. -/
theorem ends_from (h : Steps f zs g) {k : Nat} (hk : k < zs.length) :
    ∃ m, Steps f (zs.take (k + 1)) m ∧ Steps m (zs.drop (k + 1)) g ∧
      (ends f 0 zs).drop k = ⟨m, (contents m (zs.take (k + 1))).length⟩ ::
        ends m (contents m (zs.take (k + 1))).length (zs.drop (k + 1)) := by
  have hsplit : zs = zs.take (k + 1) ++ zs.drop (k + 1) := (take_append_drop _ _).symm
  obtain ⟨m, hm, hrest⟩ := steps_append.mp (hsplit ▸ h)
  refine ⟨m, hm, hrest, ?_⟩
  have hlt : k < (ends f 0 zs).length := by rwa [ends_length]
  have hentry := ends_getElem? f 0 hk
  have hdrop := ends_drop f 0 (k + 1) zs
  rw [getElem?_eq_getElem hlt, hm.endState, ite_self, Nat.zero_add] at hentry
  rw [hm.endState, ite_self, Nat.zero_add] at hdrop
  rw [drop_eq_getElem_cons hlt, Option.some.inj hentry, hdrop]

/-! ## Tables -/

/-- The items `zs` of a table are in its files, and `ps` are to be written to its head. -/
structure Laid (t : FreezerTable) (zs ps : List (Nat × Bytes)) : Prop where
  index : t.index = marshalAll (⟨t.tailId, t.itemOffset⟩ :: ends t.tailId 0 zs)
  steps : Steps t.tailId (zs ++ ps) t.headId
  pending : ∀ p ∈ ps, p.1 = t.headId
  data : ∀ f, t.tailId ≤ f → f ≤ t.headId → t.data f = some (contents f zs)
  files : ∀ f, t.files f = true ↔ t.tailId ≤ f ∧ f ≤ t.headId
  headBytes : t.headBytes = (contents t.headId zs).length
  items : t.items = t.itemOffset + zs.length
  hidden : t.itemOffset ≤ t.itemHidden ∧ t.itemHidden ≤ t.items
  version : t.metadata.version = freezerVersion
  virtualTail : t.metadata.virtualTail = t.itemHidden
  metaFile : t.metaFile = t.metadata
  flushed : t.readonly = true → t.metadata.flushOffset = t.index.length
  sizes : ∀ f, (contents f (zs ++ ps)).length < 2 ^ 32
  -- only without compression does a file never outgrow its bound
  room : t.noSnappy = true → ∀ f, (contents f (zs ++ ps)).length ≤ t.maxFileSize
  maxSize : t.maxFileSize < 2 ^ 32
  opened : t.closed = false

/-- The file numbers and the number of removed items fit their fields in the index, and the
index is no larger than a file can be. -/
def FreezerTable.Addressable (t : FreezerTable) : Prop :=
  t.headId < 2 ^ 16 ∧ t.itemOffset < 2 ^ 32 ∧ t.index.length < 2 ^ 63

/-- What a table keeps of an item. -/
def Stores (sn : Snappy) (noSnappy : Bool) (blob data : Bytes) : Prop :=
  (if noSnappy then some blob else sn.encode blob) = some data

/-- What the freezer relies on: decoding is the inverse of encoding, the length is known
beforehand, and no encoding is empty or longer than four gigabytes. -/
structure Snappy.Lossless (sn : Snappy) : Prop where
  decode : ∀ {b e}, sn.encode b = some e → sn.decode e = some b
  decodedLen : ∀ {b e}, sn.encode b = some e → sn.decodedLen e = b.length
  nonempty : ∀ {b e}, sn.encode b = some e → e ≠ []
  length : ∀ {b e}, sn.encode b = some e → e.length < 2 ^ 32

theorem Laid.steps_zs (h : Laid t zs ps) : ∃ m, Steps t.tailId zs m ∧ m ≤ t.headId := by
  obtain ⟨m, hm, hrest⟩ := steps_append.mp h.steps
  exact ⟨m, hm, hrest.le⟩

/-- The entries of the items fit their fields. -/
theorem Laid.fits_ends (h : Laid t zs ps) (hhead : t.headId < 2 ^ 16) :
    ∀ e ∈ ends t.tailId 0 zs, e.Fits := by
  intro e he
  obtain ⟨m, hm, hle⟩ := h.steps_zs
  obtain ⟨hfile, hoffset⟩ := ends_within hm e he
  refine ⟨(hfile.trans hle).trans_lt hhead, hoffset.trans_lt ?_⟩
  refine Nat.lt_of_le_of_lt ?_ (h.sizes e.filenum)
  rw [contents_append, length_append]
  exact Nat.le_add_right _ _

/-- The entries of the index fit their fields. -/
theorem Laid.fits (h : Laid t zs ps) (ha : t.Addressable) :
    ∀ e ∈ (⟨t.tailId, t.itemOffset⟩ : IndexEntry) :: ends t.tailId 0 zs, e.Fits := by
  intro e he
  rcases mem_cons.mp he with rfl | he
  · exact ⟨h.steps.le.trans_lt ha.1, ha.2.1⟩
  · exact h.fits_ends ha.1 e he

theorem Laid.items_lt (h : Laid t zs ps) (ha : t.Addressable) : t.items < 2 ^ 61 := by
  have hindex := h.index
  have hitems := h.items
  have hlen := congrArg length hindex
  rw [marshalAll_length, length_cons, ends_length] at hlen
  obtain ⟨-, hoffset, hsize⟩ := ha
  omega

end GoEthereum.Rawdb

import GoEthereum.Rawdb.FreezerRepair

/-!
# A table is a sequence with a hidden front

The specification is a list of items and the number of those that are hidden. Runs of
batches, truncations and reopenings of a table are runs of the specification, and the reads
of the table are those of the list, as long as its file numbers and the number of removed
items fit the fields that the index has for them.
-/

namespace GoEthereum.Rawdb

open FreezerTable List

variable {blob : Bytes} {b b' : FreezerTableBatch} {count n start : Nat}

/-! ## Runs -/

/-- A change of a table. Each item of a batch comes with the two times of its commits. -/
inductive Event where
  | append (blobs : List (Bytes × Bool × Bool)) (due : Bool)
  | truncateHead (items : Nat)
  | truncateTail (items : Nat)
  | reopen (readonly : Bool)

/-- Items are appended to a batch, one after the other. -/
def appendAll (sn : Snappy) :
    List (Bytes × Bool × Bool) → FreezerTableBatch → Except Err FreezerTableBatch
  | [], b => .ok b
  | (blob, due, due') :: blobs, b =>
    match b.AppendRaw sn due due' b.curItem blob with
    | .error err => .error err
    | .ok b => appendAll sn blobs b

/-- What an event does to a table. -/
def Event.run (sn : Snappy) (t : FreezerTable) : Event → Except Err FreezerTable
  | .append blobs due =>
    match appendAll sn blobs t.newBatch with
    | .error err => .error err
    | .ok b =>
      match b.commit due with
      | .error err => .error err
      | .ok b => .ok b.t
  | .truncateHead items => t.truncateHead items
  | .truncateTail items => t.truncateTail items
  | .reopen readonly =>
    match t.Close with
    | .error err => .error err
    | .ok (_, dir) => newTable dir t.maxFileSize t.noSnappy readonly

/-- A run of events. -/
def runEvents (sn : Snappy) : List Event → FreezerTable → Except Err FreezerTable
  | [], t => .ok t
  | e :: es, t =>
    match e.run sn t with
    | .error err => .error err
    | .ok t => runEvents sn es t

/-- The tables under a batch, from item to item. -/
def batchTables (sn : Snappy) : List (Bytes × Bool × Bool) → FreezerTableBatch → List FreezerTable
  | [], b => [b.t]
  | (blob, due, due') :: blobs, b =>
    b.t :: match b.AppendRaw sn due due' b.curItem blob with
      | .error _ => []
      | .ok b => batchTables sn blobs b

/-- The tables that an event starts from and goes through. -/
def Event.tables (sn : Snappy) (t : FreezerTable) : Event → List FreezerTable
  | .append blobs _ => batchTables sn blobs t.newBatch
  | _ => [t]

/-- The tables that a run goes through. -/
def runTables (sn : Snappy) : List Event → FreezerTable → List FreezerTable
  | [], t => [t]
  | e :: es, t =>
    e.tables sn t ++ match e.run sn t with
      | .error _ => []
      | .ok t => runTables sn es t

/-! ## The specification -/

/-- A sequence of items, the first of which are hidden. -/
structure Sequence where
  items : List Bytes
  tail : Nat

/-- Reading an item. -/
def Sequence.get (s : Sequence) (i : Nat) : Except Err Bytes :=
  if i < s.tail then .error .errOutOfBounds
  else
    match s.items[i]? with
    | some b => .ok b
    | none => .error .errOutOfBounds

/-- What an event is meant to do. -/
def Sequence.apply (s : Sequence) : Event → Sequence
  | .append blobs _ => { s with items := s.items ++ blobs.map Prod.fst }
  | .truncateHead items => { s with items := s.items.take items }
  | .truncateTail items => { s with tail := max s.tail items }
  | .reopen _ => s

/-- The items of a batch are no larger than a file. -/
def Event.Sized (maxFileSize : Nat) : Event → Prop
  | .append blobs _ => ∀ b ∈ blobs, b.1.length ≤ maxFileSize
  | _ => True

/-- A table holds a sequence: of the items that are not removed it has the stored form. -/
structure Holds (sn : Snappy) (t : FreezerTable) (zs ps : List (Nat × Bytes)) (s : Sequence) :
    Prop where
  tail : t.itemHidden = s.tail
  length : s.items.length = t.itemOffset + (zs ++ ps).length
  stored : List.Forall₂ (Stores sn t.noSnappy) (s.items.drop t.itemOffset) ((zs ++ ps).map Prod.snd)

variable {sn : Snappy} {t t' : FreezerTable} {zs ps : List (Nat × Bytes)} {s : Sequence}

/-! ## Steps -/

theorem Stores.storable (hsn : sn.Lossless) {data : Bytes} (h : Stores sn t.noSnappy blob data)
    (hlen : blob.length ≤ t.maxFileSize) (hmax : t.maxFileSize < 2 ^ 32) : Storable t data := by
  rw [Stores] at h
  cases hsnappy : t.noSnappy with
  | true =>
    rw [hsnappy] at h
    cases h
    refine ⟨hlen.trans_lt hmax, fun _ => hlen, ?_⟩
    intro hfalse
    rw [hsnappy] at hfalse
    cases hfalse
  | false =>
    rw [hsnappy] at h
    refine ⟨hsn.length h, ?_, fun _ => hsn.nonempty h⟩
    intro htrue
    rw [hsnappy] at htrue
    cases htrue

/-- A batch appends an item to the sequence. -/
theorem Buffered.AppendRaw (h : Buffered b zs ps) (hholds : Holds sn b.t zs ps s)
    (hsn : sn.Lossless) (hlen : blob.length ≤ b.t.maxFileSize) (hhead : b.t.headId + 1 < 2 ^ 32)
    (due due' : Bool) :
    match b.AppendRaw sn due due' b.curItem blob with
    | .ok b' => (∃ zs' ps', Buffered b' zs' ps' ∧
        Holds sn b'.t zs' ps' { s with items := s.items ++ [blob] }) ∧ Kept b.t b'.t ∧
        (b.t.noSnappy = true → b'.t.headId ≤ b.t.headId + blob.length) ∧
        b'.t.readonly = b.t.readonly
    | .error _ => b.t.noSnappy = true → b.t.readonly = true := by
  rw [FreezerTableBatch.AppendRaw, if_neg fun hne => hne rfl]
  cases hdata : (if b.t.noSnappy then some blob else sn.encode blob) with
  | none =>
    intro hsnappy
    rw [hsnappy] at hdata
    cases hdata
  | some data =>
    have hstores : Stores sn b.t.noSnappy blob data := hdata
    have hitem := h.appendItem (hstores.storable hsn hlen h.laid.maxSize) hhead due due'
    dsimp only
    generalize b.appendItem due due' data = r at hitem ⊢
    cases r with
    | error err => exact fun _ => hitem
    | ok b' =>
    obtain ⟨⟨zs', ps', file, hb', heq⟩, hkept, hid, hread⟩ := hitem
    refine ⟨⟨zs', ps', hb', ?_⟩, hkept, fun hsnappy => ?_, hread⟩
    swap
    · rw [hsnappy] at hdata
      cases hdata
      exact hid
    have hoffset : b.t.itemOffset ≤ s.items.length := by
      rw [hholds.length]
      exact Nat.le_add_right _ _
    constructor
    case tail =>
      rw [hkept.itemHidden]
      exact hholds.tail
    case length =>
      have hcount : (zs ++ ps ++ [(file, data)]).length = (zs ++ ps).length + 1 :=
        length_append
      rw [heq, hcount, hkept.itemOffset, length_append, hholds.length]
      rfl
    case stored =>
      rw [heq, hkept.itemOffset, hkept.noSnappy, map_append, drop_append_of_le_length hoffset]
      exact rel_append hholds.stored (.cons hstores .nil)

/-- A batch appends its items to the sequence. -/
theorem Buffered.appendAll (hsn : sn.Lossless) {blobs : List (Bytes × Bool × Bool)}
    (h : Buffered b zs ps) (hholds : Holds sn b.t zs ps s)
    (hsized : ∀ x ∈ blobs, x.1.length ≤ b.t.maxFileSize)
    (hhead : ∀ u ∈ batchTables sn blobs b, u.headId + 1 < 2 ^ 32)
    (happend : appendAll sn blobs b = .ok b') :
    ∃ zs' ps', Buffered b' zs' ps' ∧
      Holds sn b'.t zs' ps' { s with items := s.items ++ blobs.map Prod.fst } ∧
      b'.t.maxFileSize = b.t.maxFileSize := by
  induction blobs generalizing b zs ps s with
  | nil =>
    cases happend
    rw [map_nil, append_nil]
    exact ⟨zs, ps, h, hholds, rfl⟩
  | cons x blobs ih =>
    obtain ⟨blob, due, due'⟩ := x
    rw [Rawdb.appendAll] at happend
    rw [batchTables] at hhead
    split at happend
    · cases happend
    next b₁ hone =>
    rw [hone] at hhead
    have hraw := h.AppendRaw hholds hsn (hsized _ mem_cons_self) (hhead _ mem_cons_self) due due'
    rw [hone] at hraw
    obtain ⟨⟨zs₁, ps₁, hb₁, hholds₁⟩, hkept, -⟩ := hraw
    obtain ⟨zs', ps', hb', hholds', hmax'⟩ := ih hb₁ hholds₁
      (fun x hx => by rw [hkept.maxFileSize]; exact hsized x (mem_cons_of_mem _ hx))
      (fun u hu => hhead u (mem_cons_of_mem _ hu)) happend
    refine ⟨zs', ps', hb', ?_, hmax'.trans hkept.maxFileSize⟩
    rw [append_assoc] at hholds'
    exact hholds'

section

variable (hholds : Holds sn t zs [] s) (h : Laid t zs []) (ha : t.Addressable)
include hholds h ha

/-- `truncateHead` shortens the sequence. -/
theorem Holds.truncateHead
    (htrunc : t.truncateHead n = .ok t') :
    ∃ zs', Laid t' zs' [] ∧ Holds sn t' zs' [] { s with items := s.items.take n } ∧
      t'.maxFileSize = t.maxFileSize := by
  have hlen := hholds.length
  have hitems := h.items
  rw [append_nil] at hlen
  rcases h.truncateHead ha htrunc with ⟨hle, rfl⟩ | ⟨hhidden, hlt, hlaid, hkept⟩
  · rw [take_of_length_le (by omega)]
    exact ⟨zs, h, hholds, rfl⟩
  refine ⟨_, hlaid, ?_, hkept.maxFileSize⟩
  have hbounds := h.hidden
  constructor
  case tail =>
    rw [hkept.itemHidden]
    exact hholds.tail
  case length =>
    rw [hkept.itemOffset, append_nil, length_take, length_take]
    omega
  case stored =>
    have hstored := hholds.stored
    rw [append_nil] at hstored
    rw [hkept.itemOffset, hkept.noSnappy, append_nil, drop_take, map_take]
    exact forall₂_take _ hstored

/-- `truncateTail` hides the front of the sequence. -/
theorem Holds.truncateTail
    (htrunc : t.truncateTail n = .ok t') :
    ∃ zs', Laid t' zs' [] ∧ Holds sn t' zs' [] { s with tail := max s.tail n } ∧
      t'.maxFileSize = t.maxFileSize := by
  have htail := hholds.tail
  rcases h.truncateTail ha htrunc with
    ⟨hle, rfl⟩ | ⟨hlt, -, hhidden, hsnappy, hmax, j, hj, hoffset, hlaid⟩
  · rw [Nat.max_eq_left (by omega)]
    exact ⟨zs, h, hholds, rfl⟩
  refine ⟨_, hlaid, ?_, hmax⟩
  constructor
  case tail =>
    show t'.itemHidden = max s.tail n
    omega
  case length =>
    have hlen := hholds.length
    rw [append_nil] at hlen ⊢
    rw [hoffset, length_drop, hlen]
    omega
  case stored =>
    have hstored := hholds.stored
    rw [append_nil] at hstored
    rw [hoffset, hsnappy, append_nil, map_drop, ← drop_drop]
    exact forall₂_drop j hstored

/-- A table that is opened again holds the same sequence. -/
theorem Holds.reopen
    {readonly : Bool} (hreopen : Event.run sn t (.reopen readonly) = .ok t') :
    ∃ zs', Laid t' zs' [] ∧ Holds sn t' zs' [] s ∧ t'.maxFileSize = t.maxFileSize := by
  obtain ⟨u, dir, hclose, hstored⟩ := h.Close ha.1
  rw [Nat.mod_eq_of_lt ha.2.1] at hstored
  have hhidden : t.itemHidden ≤ t.itemOffset + zs.length := by
    rw [← h.items]
    exact h.hidden.2
  have hindex : (zs.length + 1) * indexEntrySize < 2 ^ 63 := by
    have hlen := congrArg List.length h.index
    rw [marshalAll_length, length_cons, ends_length] at hlen
    rw [indexEntrySize, ← hlen]
    exact ha.2.2
  obtain ⟨t₁, hopen, hlaid, hoffset, hhid, hsnappy, hmax, -⟩ := hstored.newTable hhidden
    h.sizes_nil h.maxSize h.room_nil ha.1 hindex readonly
  rw [Event.run, hclose] at hreopen
  dsimp only at hreopen
  rw [hopen] at hreopen
  cases hreopen
  refine ⟨zs, hlaid, ?_, hmax⟩
  constructor
  case tail => exact hhid.trans hholds.tail
  case length =>
    rw [hoffset]
    exact hholds.length
  case stored =>
    rw [hoffset, hsnappy]
    exact hholds.stored

end

section

variable (hsn : sn.Lossless) (hholds : Holds sn t zs [] s) (h : Laid t zs [])
include hsn hholds h

/-- Every event does what it is meant to do. -/
theorem Holds.run
    {e : Event} (hsized : e.Sized t.maxFileSize) (ha : ∀ u ∈ e.tables sn t, u.Addressable)
    (hrun : e.run sn t = .ok t') :
    ∃ zs', Laid t' zs' [] ∧ Holds sn t' zs' [] (s.apply e) ∧ t'.maxFileSize = t.maxFileSize := by
  cases e with
  | append blobs due =>
    rw [Event.run] at hrun
    split at hrun
    · cases hrun
    next b happend =>
    split at hrun
    · cases hrun
    next b' hcommit =>
    cases hrun
    have hhead : ∀ u ∈ batchTables sn blobs t.newBatch, u.headId + 1 < 2 ^ 32 := by
      intro u hu
      have hlt := (ha u hu).1
      omega
    obtain ⟨zs₁, ps₁, hb, hholds₁, hmax⟩ :=
      (Buffered.newBatch h).appendAll hsn hholds hsized hhead happend
    have hcommitted := hb.commit due
    rw [hcommit] at hcommitted
    obtain ⟨hb', hkept, -⟩ := hcommitted
    refine ⟨zs₁ ++ ps₁, hb'.laid, ?_, hkept.maxFileSize.trans hmax⟩
    constructor
    case tail =>
      rw [hkept.itemHidden]
      exact hholds₁.tail
    case length =>
      rw [hkept.itemOffset, append_nil]
      exact hholds₁.length
    case stored =>
      rw [hkept.itemOffset, hkept.noSnappy, append_nil]
      exact hholds₁.stored
  | truncateHead items => exact hholds.truncateHead h (ha t mem_cons_self) hrun
  | truncateTail items => exact hholds.truncateTail h (ha t mem_cons_self) hrun
  | reopen readonly => exact hholds.reopen h (ha t mem_cons_self) hrun

/-- A run of events is a run of the specification. -/
theorem Holds.runEvents {es : List Event} (hsized : ∀ e ∈ es, e.Sized t.maxFileSize)
    (ha : ∀ u ∈ runTables sn es t, u.Addressable) (hrun : runEvents sn es t = .ok t') :
    ∃ zs', Laid t' zs' [] ∧ Holds sn t' zs' [] (es.foldl Sequence.apply s) ∧ t'.Addressable := by
  induction es generalizing t zs s with
  | nil =>
    cases hrun
    exact ⟨zs, h, hholds, ha _ mem_cons_self⟩
  | cons e es ih =>
    rw [Rawdb.runEvents] at hrun
    rw [runTables] at ha
    split at hrun
    · cases hrun
    next t₁ hone =>
    rw [hone] at ha
    obtain ⟨zs₁, h₁, hholds₁, hmax⟩ := hholds.run hsn h (hsized e mem_cons_self)
      (fun u hu => ha u (mem_append_left _ hu)) hone
    exact ih hholds₁ h₁ (fun e' he' => by rw [hmax]; exact hsized e' (mem_cons_of_mem e he'))
      (fun u hu => ha u (mem_append_right _ hu)) hrun

/-! ## Reads -/

/-- `Retrieve` reads the sequence. -/
theorem Holds.Retrieve
    (ha : t.Addressable) (i : Nat) : t.Retrieve sn i = s.get i := by
  have hlen := hholds.length
  have hstored := hholds.stored
  have hitems := h.items
  have hbounds := h.hidden
  have htail := hholds.tail
  rw [append_nil] at hlen hstored
  rw [Sequence.get]
  by_cases hhidden : i < s.tail
  · rw [if_pos hhidden]
    exact h.Retrieve_outOfBounds (.inl (by omega))
  rw [if_neg hhidden]
  cases hget : s.items[i]? with
  | none =>
    have hle := getElem?_eq_none_iff.mp hget
    exact h.Retrieve_outOfBounds (.inr (by omega))
  | some b =>
    obtain ⟨k, rfl⟩ : ∃ k, i = t.itemOffset + k := ⟨i - t.itemOffset, by omega⟩
    exact h.Retrieve ha hsn hstored (by rw [getElem?_drop]; exact hget) (by omega)

/-- `RetrieveItems` reads a run of the sequence. -/
theorem Holds.RetrieveItems
    (ha : t.Addressable) {maxBytes : Nat} (hstart : s.tail ≤ start) (hend : start < s.items.length)
    (hcount : 0 < count) (hsum : start + count < 2 ^ 64) (hcap : count * 24 ≤ maxAlloc)
    (hmax : maxBytes ≤ maxAlloc) :
    ∃ j, t.RetrieveItems sn start count maxBytes = .ok ((s.items.drop start).take j) ∧
      1 ≤ j ∧ j ≤ min count (s.items.length - start) ∧
      (maxBytes ≠ 0 → j = 1 ∨ (((s.items.drop start).take j).map List.length).sum ≤ maxBytes) ∧
      (maxBytes = 0 → j = min count (s.items.length - start)) := by
  have hlen := hholds.length
  have hstored := hholds.stored
  have hbounds := h.hidden
  have htail := hholds.tail
  rw [append_nil] at hlen hstored
  obtain ⟨k, rfl⟩ : ∃ k, start = t.itemOffset + k := ⟨start - t.itemOffset, by omega⟩
  have hleft : s.items.length - (t.itemOffset + k) = zs.length - k := by omega
  rw [hleft, ← drop_drop]
  exact h.RetrieveItems ha hsn hstored count maxBytes (by omega) (by omega) hcount hsum hcap hmax

end

theorem Holds.RetrieveItems_outOfBounds (hholds : Holds sn t zs [] s) (h : Laid t zs [])
    (maxBytes : Nat) (hout : start < s.tail ∨ s.items.length ≤ start ∨ count = 0) :
    t.RetrieveItems sn start count maxBytes = .error .errOutOfBounds := by
  have hlen := hholds.length
  have hitems := h.items
  have htail := hholds.tail
  rw [append_nil] at hlen
  rw [FreezerTable.RetrieveItems, h.retrieveItems_outOfBounds maxBytes (by omega)]

/-- A new table holds the empty sequence. -/
theorem Holds.newTable (hoffset : t.itemOffset = 0) (hhidden : t.itemHidden = 0) :
    Holds sn t [] [] ⟨[], 0⟩ :=
  ⟨hhidden, by rw [hoffset]; rfl, by rw [hoffset]; exact .nil⟩

/-- A table that is filled by any run of batches, truncations and reopenings is a sequence
with a hidden front, as long as its file numbers and the number of removed items fit the
fields of the index. The counts and the limits that are read with must be such that memory
can be reserved for them. -/
theorem freezerTable_sequence (hsn : sn.Lossless) {maxFileSize : Nat}
    (hmax : maxFileSize < 2 ^ 32) {noSnappy : Bool} {t₀ : FreezerTable}
    (hnew : newTable ⟨none, none, fun _ => none⟩ maxFileSize noSnappy false = .ok t₀)
    {es : List Event} (hsized : ∀ e ∈ es, e.Sized maxFileSize)
    (ha : ∀ u ∈ runTables sn es t₀, u.Addressable) (hrun : runEvents sn es t₀ = .ok t) :
    let s := es.foldl Sequence.apply ⟨[], 0⟩
    (∀ i, t.Retrieve sn i = s.get i) ∧
    (∀ start count maxBytes, start < s.tail ∨ s.items.length ≤ start ∨ count = 0 →
      t.RetrieveItems sn start count maxBytes = .error .errOutOfBounds) ∧
    ∀ start count maxBytes, s.tail ≤ start → start < s.items.length → 0 < count →
      start + count < 2 ^ 64 → count * 24 ≤ maxAlloc → maxBytes ≤ maxAlloc →
      ∃ j, t.RetrieveItems sn start count maxBytes = .ok ((s.items.drop start).take j) ∧
        1 ≤ j ∧ j ≤ min count (s.items.length - start) ∧
        (maxBytes ≠ 0 → j = 1 ∨ (((s.items.drop start).take j).map length).sum ≤ maxBytes) ∧
        (maxBytes = 0 → j = min count (s.items.length - start)) := by
  obtain ⟨t₁, hnew₁, hlaid, hoffset, hhidden, -, hmaxSize, -⟩ := newTable_empty hmax noSnappy
  obtain rfl := Except.ok.inj (hnew₁.symm.trans hnew)
  subst hmaxSize
  obtain ⟨zs, h, hholds, haddr⟩ :=
    (Holds.newTable hoffset hhidden).runEvents hsn hlaid hsized ha hrun
  refine ⟨?_, ?_, ?_⟩
  · exact hholds.Retrieve hsn h haddr
  · intro start count maxBytes hout
    exact hholds.RetrieveItems_outOfBounds h maxBytes hout
  · intro start count maxBytes hstart hend hcount hsum hcap hlimit
    exact hholds.RetrieveItems hsn h haddr hstart hend hcount hsum hcap hlimit

end GoEthereum.Rawdb

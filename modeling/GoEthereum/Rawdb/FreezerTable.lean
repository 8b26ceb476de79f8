import GoEthereum.Common

/-!
# Freezer tables

A table of `core/rawdb` keeps its items in data files with ascending numbers and the end
of each item in an index file. The first index entry is no end: it has the number of the
earliest data file and the number of items removed with the files before it. The files of
the directory are byte strings; writing to a file appends to it, which is where every
handle of the source stands. The wall clock decides when a commit is followed by a sync,
so it is an argument here.
-/

namespace GoEthereum.Rawdb

/-- The errors of a table. `makeslice` is the panic of `make` with a size that is too
large. -/
inductive Err where
  | errClosed
  | errOutOfBounds
  | errOutOrderInsertion (have_ want : Nat)
  | eof
  | notExist
  | truncationBelowTail
  | truncationAboveHead
  | invalidIndex (tailFile itemFile : Nat)
  | invalidFlushOffset (flushOffset shorten : Nat)
  | missingDataFile (fileId : Nat)
  | readData (fileId start length : Nat)
  | indexSize
  | indexCorrupted (offset size : Nat)
  | indexGarbage (extraSize : Nat)
  | corrupted (num : Nat)
  /-- A write to a file that is open for reading. -/
  | badFile
  | snappy
  | makeslice
  | outOfFuel
deriving DecidableEq

/-- `indexEntry`. -/
structure IndexEntry where
  filenum : Nat
  offset : Nat
deriving DecidableEq

def indexEntrySize : Nat := 6

namespace IndexEntry

def unmarshalBinary (b : Bytes) : IndexEntry := ⟨beNat (b.take 2), beNat ((b.drop 2).take 4)⟩

/-- The serialized form: of the file number two bytes are kept. -/
def marshal (i : IndexEntry) : Bytes := beBytes 2 i.filenum ++ beBytes 4 i.offset

def append (i : IndexEntry) (b : Bytes) : Bytes := b ++ i.marshal

def bounds (i end_ : IndexEntry) : Nat × Nat × Nat :=
  if i.filenum ≠ end_.filenum then (0, end_.offset, end_.filenum)
  else (i.offset, end_.offset, end_.filenum)

end IndexEntry

/-- `freezerTableMeta`, without the handle of its file. -/
structure FreezerTableMeta where
  version : Nat
  virtualTail : Nat
  flushOffset : Nat
deriving DecidableEq

def freezerTableV1 : Nat := 1

def freezerVersion : Nat := 2

/-- The files of a table. -/
structure Dir where
  index : Option Bytes
  metadata : Option FreezerTableMeta
  data : Nat → Option Bytes

/-- `freezerTable`, with the contents of its files. -/
structure FreezerTable where
  items : Nat
  itemOffset : Nat
  itemHidden : Nat
  noSnappy : Bool
  readonly : Bool
  maxFileSize : Nat
  index : Bytes
  data : Nat → Option Bytes
  /-- The data files that are open. -/
  files : Nat → Bool
  headId : Nat
  tailId : Nat
  metadata : FreezerTableMeta
  /-- What the metadata file holds. -/
  metaFile : FreezerTableMeta
  headBytes : Nat
  closed : Bool

/-- The most that `make` allocates, on a machine of 64 bits. -/
def maxAlloc : Nat := 2 ^ 48

/-- `snappy`: `Encode`, which panics on input that is too large, `Decode` and
`DecodedLen`. -/
structure Snappy where
  encode : Bytes → Option Bytes
  decode : Bytes → Option Bytes
  decodedLen : Bytes → Nat

/-- `ReadAt`. -/
def readAt (file : Bytes) (off len : Nat) : Except Err Bytes :=
  if len = 0 then .ok []
  else if off + len ≤ file.length then .ok ((file.drop off).take len)
  else .error .eof

/-- `ReadAt` of an index entry, at its position. -/
def readEntry (index : Bytes) (pos : Nat) : Except Err IndexEntry :=
  match readAt index (pos * indexEntrySize) indexEntrySize with
  | .error err => .error err
  | .ok buffer => .ok (.unmarshalBinary buffer)

/-- How a data file is opened. -/
inductive Opener where
  | forAppend
  | forReadOnly
  | truncated

namespace FreezerTable

variable (t : FreezerTable)

/-- `write` of the metadata. -/
def writeMeta : FreezerTable :=
  { t with metaFile := { t.metadata with version := freezerVersion } }

def setVirtualTail (tail : Nat) (t : FreezerTable) : FreezerTable :=
  writeMeta { t with metadata := { t.metadata with virtualTail := tail } }

def setFlushOffset (offset : Nat) (t : FreezerTable) : FreezerTable :=
  writeMeta { t with metadata := { t.metadata with flushOffset := offset } }

def openFile (num : Nat) (opener : Opener) (t : FreezerTable) : Except Err FreezerTable :=
  if t.files num then .ok t
  else
    let t' := { t with files := Function.update t.files num true }
    match opener with
    | .forAppend =>
      .ok { t' with data := Function.update t.data num (some ((t.data num).getD [])) }
    | .forReadOnly =>
      match t.data num with
      | none => .error .notExist
      | some _ => .ok t'
    | .truncated => .ok { t' with data := Function.update t.data num (some []) }

def releaseFile (num : Nat) (t : FreezerTable) : FreezerTable :=
  { t with files := Function.update t.files num false }

def releaseFilesAfter (num : Nat) (remove : Bool) (t : FreezerTable) : FreezerTable :=
  { t with
    files := fun f => t.files f && !decide (num < f)
    data := fun f => if remove && t.files f && decide (num < f) then none else t.data f }

def releaseFilesBefore (num : Nat) (remove : Bool) (t : FreezerTable) : FreezerTable :=
  { t with
    files := fun f => t.files f && !decide (f < num)
    data := fun f => if remove && t.files f && decide (f < num) then none else t.data f }

/-- `truncateFreezerFile` of the head file. -/
def truncateData (num size : Nat) (t : FreezerTable) : FreezerTable :=
  { t with data := Function.update t.data num (some (((t.data num).getD []).take size)) }

def doSync : Except Err FreezerTable :=
  if t.readonly then .ok t
  else if t.closed then .error .errClosed
  else .ok (t.setFlushOffset t.index.length)

/-! ## Reading -/

/-- The loop of `getIndices`. -/
def unmarshalAll : Nat → Bytes → List IndexEntry
  | 0, _ => []
  | n + 1, buffer =>
    .unmarshalBinary (buffer.take indexEntrySize) :: unmarshalAll n (buffer.drop indexEntrySize)

def getIndices (fromItem count : Nat) : Except Err (List IndexEntry) :=
  -- uint64 arithmetic
  let from_ := (fromItem + (2 ^ 64 - t.itemOffset)) % 2 ^ 64
  match readAt t.index (from_ * indexEntrySize) ((count + 1) * indexEntrySize) with
  | .error err => .error err
  | .ok buffer =>
    match unmarshalAll (count + 1) buffer with
    | _ :: second :: indices =>
      if from_ = 0 then .ok (⟨second.filenum, 0⟩ :: second :: indices)
      else .ok (unmarshalAll (count + 1) buffer)
    | indices => .ok indices

/-- The variables of the loop of `retrieveItems`. -/
structure ReadState where
  output : Bytes
  sizes : List Nat
  totalSize : Nat
  readStart : Nat
  unreadSize : Nat

def readData (fileId start length : Nat) (st : ReadState) :
    Except Err ReadState :=
  if t.files fileId then
    match readAt ((t.data fileId).getD []) start length with
    | .error _ => .error (.readData fileId start length)
    | .ok b => .ok { st with output := st.output ++ b }
  else .error (.missingDataFile fileId)

/-- `readData`, if there is something to read. -/
def readUnread (fileId : Nat) (st : ReadState) : Except Err ReadState :=
  if st.unreadSize > 0 then t.readData fileId st.readStart st.unreadSize st else .ok st

/-- Before a file boundary is crossed, what is left of the first file is read. -/
def crossFile (firstIndex secondIndex : IndexEntry) (st : ReadState) :
    Except Err ReadState :=
  if secondIndex.filenum ≠ firstIndex.filenum then
    match t.readUnread firstIndex.filenum st with
    | .error err => .error err
    | .ok st => .ok { st with unreadSize := 0, readStart := 0 }
  else .ok st

/-- The loop of `retrieveItems`. -/
def readLoop (t : FreezerTable) (maxBytes : Nat) :
    Nat → List IndexEntry → ReadState → Except Err ReadState
  | i, firstIndex :: secondIndex :: indices, st =>
    let (offset1, offset2, _) := firstIndex.bounds secondIndex
    let size := (offset2 + (2 ^ 32 - offset1)) % 2 ^ 32
    match t.crossFile firstIndex secondIndex st with
    | .error err => .error err
    | .ok st =>
      if i > 0 ∧ st.totalSize + size > maxBytes ∧ maxBytes ≠ 0 then
        t.readUnread secondIndex.filenum st
      else
        let st := { st with
          unreadSize := st.unreadSize + size
          totalSize := st.totalSize + size
          sizes := st.sizes ++ [size] }
        if indices = [] ∨ (st.totalSize > maxBytes ∧ maxBytes ≠ 0) then
          t.readData secondIndex.filenum st.readStart st.unreadSize st
        else readLoop t maxBytes (i + 1) (secondIndex :: indices) st
  | _, _, st => .ok st

def retrieveItems (start count maxBytes : Nat) : Except Err (Bytes × List Nat) :=
  if t.closed then .error .errClosed
  else if t.items ≤ start ∨ t.itemHidden > start ∨ count = 0 then .error .errOutOfBounds
  else
    let count := if (start + count) % 2 ^ 64 > t.items then t.items - start else count
    if maxBytes > maxAlloc then .error .makeslice
    else
      match t.getIndices start count with
      | .error err => .error err
      | .ok indices =>
        match t.readLoop maxBytes 0 indices
          ⟨[], [], 0, ((indices.head?).map (·.offset)).getD 0, 0⟩ with
        | .error err => .error err
        | .ok st => .ok (st.output, st.sizes)

/-- The loop of `RetrieveItems`. -/
def sliceLoop (sn : Snappy) (noSnappy : Bool) (maxBytes : Nat) (diskData : Bytes) :
    Nat → List Nat → Nat → Nat → Except Err (List Bytes)
  | _, [], _, _ => .ok []
  | i, diskSize :: sizes, offset, outputSize =>
    let item := (diskData.drop offset).take diskSize
    let decompressedSize := if noSnappy then diskSize else sn.decodedLen item
    if i > 0 ∧ maxBytes ≠ 0 ∧ outputSize + decompressedSize > maxBytes then .ok []
    else
      match (if noSnappy then some item else sn.decode item) with
      | none => .error .snappy
      | some data =>
        match sliceLoop sn noSnappy maxBytes diskData (i + 1) sizes (offset + diskSize)
          (outputSize + decompressedSize) with
        | .error err => .error err
        | .ok output => .ok (data :: output)

def RetrieveItems (sn : Snappy) (t : FreezerTable) (start count maxBytes : Nat) :
    Except Err (List Bytes) :=
  match t.retrieveItems start count maxBytes with
  | .error err => .error err
  | .ok (diskData, sizes) =>
    -- the capacity is the count that was asked for; a slice header has 24 bytes
    if count * 24 > maxAlloc then .error .makeslice
    else sliceLoop sn t.noSnappy maxBytes diskData 0 sizes 0 0

def Retrieve (sn : Snappy) (t : FreezerTable) (item : Nat) : Except Err Bytes :=
  match t.RetrieveItems sn item 1 0 with
  | .error err => .error err
  | .ok [] => .error .errOutOfBounds
  | .ok (data :: _) => .ok data

def sizeHidden : Except Err Nat :=
  if t.itemHidden ≤ t.itemOffset then .ok 0
  else
    match t.getIndices (t.itemHidden - 1) 1 with
    | .error err => .error err
    | .ok indices => .ok ((indices[1]?).map (·.offset) |>.getD 0)

/-- `sizeNolock`: the size goes to the metrics only. -/
def sizeNolock : Except Err Nat :=
  match t.sizeHidden with
  | .error err => .error err
  | .ok hidden =>
    .ok (t.maxFileSize * (t.headId - t.tailId) + t.headBytes + t.index.length - hidden)

/-! ## Truncating -/

/-- The end of the data of the first items of the index. -/
def endOf (length : Nat) (t : FreezerTable) : Except Err IndexEntry :=
  if length = 0 then .ok ⟨t.tailId, 0⟩ else readEntry t.index length

/-- The change of the head of `truncateHead`. -/
def backToFile (filenum : Nat) (t : FreezerTable) : Except Err FreezerTable :=
  if filenum ≠ t.headId then
    match (t.releaseFile filenum).openFile filenum .forAppend with
    | .error err => .error err
    | .ok t => .ok { t.releaseFilesAfter filenum true with headId := filenum }
  else .ok t

def truncateHead (items : Nat) (t : FreezerTable) : Except Err FreezerTable :=
  if t.items ≤ items then .ok t
  else if items < t.itemHidden then .error .truncationBelowTail
  else
    match t.sizeNolock with
    | .error err => .error err
    | .ok _ =>
      if t.readonly then .error .badFile
      else
        let length := items - t.itemOffset
        let newOffset := (length + 1) * indexEntrySize
        let t := { t with index := t.index.take newOffset }
        let t := if t.metadata.flushOffset > newOffset then t.setFlushOffset newOffset else t
        match t.endOf length with
        | .error err => .error err
        | .ok expected =>
          match t.backToFile expected.filenum with
          | .error err => .error err
          | .ok t =>
            let t := { t.truncateData t.headId expected.offset with
              headBytes := expected.offset, items := items }
            match t.sizeNolock with
            | .error err => .error err
            | .ok _ => .ok t

/-- The file of the first item that `truncateTail` keeps. -/
def tailFile (items : Nat) (t : FreezerTable) : Except Err Nat :=
  if t.items = items then .ok t.headId
  else (readEntry t.index (items - t.itemOffset + 1)).map (·.filenum)

/-- The loop of `truncateTail` that counts the items to delete, with uint64 arithmetic. -/
def countDeleted (index : Bytes) (newTailId deleted : Nat) : Nat → Nat → Nat → Except Err Nat
  | 0, _, _ => .error .outOfFuel
  | fuel + 1, current, newDeleted =>
    if current ≥ deleted then
      match readAt index ((((current - deleted + 1) % 2 ^ 64) * indexEntrySize) % 2 ^ 64)
        indexEntrySize with
      | .error err => .error err
      | .ok buffer =>
        if (IndexEntry.unmarshalBinary buffer).filenum ≠ newTailId then .ok newDeleted
        else countDeleted index newTailId deleted fuel ((current + (2 ^ 64 - 1)) % 2 ^ 64) current
    else .ok newDeleted

/-- The first step of `truncateTail`: items are hidden. -/
def hide (items : Nat) (t : FreezerTable) : FreezerTable :=
  { t with itemHidden := items }.setVirtualTail items

/-- The last steps of `truncateTail`: the index is copied from the new tail on, and the data
files before it are removed. -/
def moveTail (newTailId newDeleted : Nat) (t : FreezerTable) : Except Err FreezerTable :=
  let deleted := t.itemOffset
  -- copyFrom: the new first entry, and what is left of the others
  let tailIndex : IndexEntry := ⟨newTailId, newDeleted % 2 ^ 32⟩
  let t := { t with
    index := tailIndex.append [] ++ t.index.drop (indexEntrySize * (newDeleted - deleted + 1))
    tailId := newTailId
    itemOffset := newDeleted }
  let t := t.releaseFilesBefore t.tailId true
  let shorten := indexEntrySize * (newDeleted - deleted)
  if t.metadata.flushOffset ≤ shorten then
    .error (.invalidFlushOffset t.metadata.flushOffset shorten)
  else
    let t := t.setFlushOffset (t.metadata.flushOffset - shorten)
    match t.sizeNolock with
    | .error err => .error err
    | .ok _ => .ok t

/-- The data files that hold hidden items only are removed. -/
def removeHidden (items newTailId : Nat) (t : FreezerTable) : Except Err FreezerTable :=
  if t.tailId = newTailId then .ok t
  else if t.tailId > newTailId then .error (.invalidIndex t.tailId newTailId)
  else
    match t.doSync with
    | .error err => .error err
    | .ok t =>
      match countDeleted t.index newTailId t.itemOffset (items + 1) (items - 1) items with
      | .error err => .error err
      | .ok newDeleted => t.moveTail newTailId newDeleted

def truncateTail (items : Nat) (t : FreezerTable) : Except Err FreezerTable :=
  if t.itemHidden ≥ items then .ok t
  else if t.items < items then .error .truncationAboveHead
  else
    match t.tailFile items with
    | .error err => .error err
    | .ok newTailId =>
      match t.sizeNolock with
      | .error err => .error err
      | .ok _ =>
        if t.readonly then .error .badFile
        else (t.hide items).removeHidden items newTailId

/-! ## Opening and closing -/

def checkIndexItems (a b : IndexEntry) : Bool :=
  !(decide (b.filenum ≠ a.filenum ∧ b.filenum ≠ a.filenum + 1) ||
    decide (b.filenum = a.filenum ∧ b.offset < a.offset) ||
    decide (b.filenum = a.filenum + 1 ∧ b.offset = 0))

/-- The entries after `prev` that are in order, up to the first that is not. -/
def inOrder : IndexEntry → List IndexEntry → Nat
  | _, [] => 0
  | prev, entry :: entries => if checkIndexItems prev entry then inOrder entry entries + 1 else 0

/-- The loop of `checkIndex`: the number of entries before a corrupted one. -/
def checkEntries : List IndexEntry → Nat
  | head :: entry :: entries =>
    if entry.filenum ≠ head.filenum ∧ entry.filenum ≠ head.filenum + 1 then 1
    else inOrder entry entries + 2
  | entries => entries.length

/-- `checkIndex`: the size up to which the index is in order. -/
def checkIndex (size : Nat) (t : FreezerTable) : Except Err (Nat × FreezerTable) :=
  let good := checkEntries (unmarshalAll (size / indexEntrySize) t.index) * indexEntrySize
  if good = size then .ok (size, t)
  else if t.readonly then .error (.indexCorrupted good size)
  else .ok (good, { t with index := t.index.take good })

def repairIndex : Except Err FreezerTable :=
  match t.checkIndex t.index.length with
  | .error err => .error err
  | .ok (size, t) =>
    if t.metadata.version = freezerTableV1 then
      if t.readonly then .ok t else .ok (t.setFlushOffset size)
    else if size = indexEntrySize ∧ t.metadata.flushOffset = 0 then
      if t.readonly then .error .badFile else .ok (t.setFlushOffset size)
    else if size = t.metadata.flushOffset then .ok t
    else if size > t.metadata.flushOffset then
      if t.readonly then .error (.indexGarbage (size - t.metadata.flushOffset))
      else .ok { t with index := t.index.take t.metadata.flushOffset }
    else if t.readonly then .ok t
    else .ok (t.setFlushOffset size)

/-- The last entry of an index file. -/
def lastIndex : IndexEntry :=
  if t.index.length = indexEntrySize then ⟨t.tailId, 0⟩
  else .unmarshalBinary (t.index.drop (t.index.length - indexEntrySize))

/-- The loop of `repair` that brings the head file and the index into sync. -/
def syncHead : Nat → FreezerTable → IndexEntry → Nat → Except Err (FreezerTable × IndexEntry)
  | 0, _, _, _ => .error .outOfFuel
  | fuel + 1, t, last, contentSize =>
    if last.offset = contentSize then .ok (t, last)
    else if t.readonly then .error (.corrupted last.filenum)
    else if last.offset < contentSize then .ok (t.truncateData last.filenum last.offset, last)
    else
      let newOffset := t.index.length - indexEntrySize
      let t := { t with index := t.index.take newOffset }
      let t := if t.metadata.flushOffset > newOffset then t.setFlushOffset newOffset else t
      let newLast := t.lastIndex
      -- we might have slipped back into an earlier head file
      if newLast.filenum ≠ last.filenum then
        match (t.releaseFile last.filenum).openFile newLast.filenum .forAppend with
        | .error err => .error err
        | .ok t => syncHead fuel t newLast ((t.data newLast.filenum).getD []).length
      else syncHead fuel t newLast contentSize

/-- The loop of `preopen`. -/
def openFiles : Nat → Nat → FreezerTable → Except Err FreezerTable
  | 0, _, t => .ok t
  | n + 1, num, t =>
    match t.openFile num .forReadOnly with
    | .error err => .error err
    | .ok t => openFiles n (num + 1) t

/-- How the head file is opened. -/
def headOpener : Opener := if t.readonly then .forReadOnly else .forAppend

def preopen : Except Err FreezerTable :=
  match openFiles (t.headId - t.tailId) t.tailId (t.releaseFilesAfter 0 false) with
  | .error err => .error err
  | .ok t => t.openFile t.headId t.headOpener

/-- The first steps of `repair`: the index has a first entry, and whole entries only. -/
def repairSize : Except Err FreezerTable :=
  let size := t.index.length
  let t := if size = 0 then { t with index := List.replicate indexEntrySize 0 } else t
  if size % indexEntrySize ≠ 0 then
    if t.readonly then .error .indexSize
    else .ok { t with index := t.index.take (size - size % indexEntrySize) }
  else .ok t

/-- The tail of the table, from the first entry of the index. -/
def loadTail : Except Err FreezerTable :=
  let firstIndex := IndexEntry.unmarshalBinary (t.index.take indexEntrySize)
  let t := { t with tailId := firstIndex.filenum, itemOffset := firstIndex.offset }
  if t.itemOffset > t.metadata.virtualTail then
    if t.readonly then .error .badFile
    else .ok { t.setVirtualTail t.itemOffset with itemHidden := t.itemOffset }
  else .ok { t with itemHidden := t.metadata.virtualTail }

/-- The end of `repair`: the counters, and the files that are not needed any more. -/
def finishRepair (last : IndexEntry) : Except Err FreezerTable :=
  let t := { t with
    items := t.itemOffset + (t.index.length / indexEntrySize - 1)
    headBytes := ((t.data last.filenum).getD []).length
    headId := last.filenum }
  ((t.releaseFilesAfter t.headId true).releaseFilesBefore t.tailId true).preopen

def repair : Except Err FreezerTable :=
  match t.repairSize with
  | .error err => .error err
  | .ok t =>
    match t.repairIndex with
    | .error err => .error err
    | .ok t =>
      match t.loadTail with
      | .error err => .error err
      | .ok t =>
        match t.openFile t.lastIndex.filenum t.headOpener with
        | .error err => .error err
        | .ok t =>
          match syncHead (t.index.length + 1) t t.lastIndex
            ((t.data t.lastIndex.filenum).getD []).length with
          | .error err => .error err
          | .ok (t, last) => t.finishRepair last

/-- The table that `newTable` repairs. -/
def unrepaired (dir : Dir) (maxFileSize : Nat) (noSnappy readonly : Bool) : FreezerTable :=
  let metadata := dir.metadata.getD ⟨freezerVersion, 0, 0⟩
  { items := 0, itemOffset := 0, itemHidden := 0, noSnappy := noSnappy, readonly := readonly,
    maxFileSize := maxFileSize, index := dir.index.getD [], data := dir.data,
    files := fun _ => false, headId := 0, tailId := 0, metadata := metadata,
    metaFile := metadata, headBytes := 0, closed := false }

def newTable (dir : Dir) (maxFileSize : Nat) (noSnappy readonly : Bool) : Except Err FreezerTable :=
  if readonly ∧ (dir.index = none ∨ dir.metadata = none) then .error .notExist
  else
    match (unrepaired dir maxFileSize noSnappy readonly).repair with
    | .error err => .error err
    | .ok t =>
      match t.sizeNolock with
      | .error err => .error err
      | .ok _ => .ok t

/-- `Close`, and the files it leaves. -/
def Close : Except Err (FreezerTable × Dir) :=
  match t.doSync with
  | .error err => .error err
  | .ok t =>
    .ok ({ t with files := fun _ => false, closed := true }, ⟨some t.index, some t.metaFile, t.data⟩)

def advanceHead : Except Err FreezerTable :=
  match t.doSync with
  | .error err => .error err
  | .ok t =>
    let nextID := (t.headId + 1) % 2 ^ 32
    match t.openFile nextID .truncated with
    | .error err => .error err
    | .ok t =>
      match (t.releaseFile t.headId).openFile t.headId .forReadOnly with
      | .error err => .error err
      | .ok t => .ok { t with headBytes := 0, headId := nextID }

end FreezerTable

/-! ## Batches -/

def freezerBatchBufferLimit : Nat := 2 * 1024 * 1024

/-- `freezerTableBatch`, with its table. -/
structure FreezerTableBatch where
  t : FreezerTable
  dataBuffer : Bytes
  indexBuffer : Bytes
  curItem : Nat
  totalBytes : Nat

def FreezerTable.newBatch (t : FreezerTable) : FreezerTableBatch := ⟨t, [], [], t.items, 0⟩

namespace FreezerTableBatch

/-- `commit`; `due` is whether the last sync was more than 30 seconds ago. -/
def commit (due : Bool) (batch : FreezerTableBatch) : Except Err FreezerTableBatch :=
  let t := batch.t
  let t := { t with
    data := Function.update t.data t.headId (some ((t.data t.headId).getD [] ++ batch.dataBuffer))
    index := t.index ++ batch.indexBuffer
    headBytes := t.headBytes + batch.dataBuffer.length
    items := batch.curItem }
  let batch := { batch with t := t, dataBuffer := [], indexBuffer := [] }
  if t.readonly then .error .badFile
  else if due then
    match t.doSync with
    | .error err => .error err
    | .ok t => .ok { batch with t := t }
  else .ok batch

def maybeCommit (due : Bool) (batch : FreezerTableBatch) : Except Err FreezerTableBatch :=
  if batch.dataBuffer.length > freezerBatchBufferLimit then batch.commit due else .ok batch

/-- The change to the next file in `appendItem`. -/
def nextFile (due : Bool) (batch : FreezerTableBatch) : Except Err FreezerTableBatch :=
  match batch.commit due with
  | .error err => .error err
  | .ok batch =>
    match batch.t.advanceHead with
    | .error err => .error err
    | .ok t => .ok { batch with t := t }

/-- The item and its index entry are put to the buffers. -/
def put (data : Bytes) (itemOffset : Nat) (batch : FreezerTableBatch) : FreezerTableBatch :=
  let entry : IndexEntry := ⟨batch.t.headId, (itemOffset + data.length) % 2 ^ 32⟩
  { batch with
    dataBuffer := batch.dataBuffer ++ data
    totalBytes := batch.totalBytes + data.length
    indexBuffer := entry.append batch.indexBuffer
    curItem := batch.curItem + 1 }

def appendItem (due due' : Bool) (data : Bytes) (batch : FreezerTableBatch) :
    Except Err FreezerTableBatch :=
  let itemOffset := batch.t.headBytes + batch.dataBuffer.length
  if itemOffset + data.length > batch.t.maxFileSize then
    match batch.nextFile due with
    | .error err => .error err
    | .ok batch => (batch.put data 0).maybeCommit due'
  else (batch.put data itemOffset).maybeCommit due'

def AppendRaw (sn : Snappy) (due due' : Bool) (item : Nat) (blob : Bytes)
    (batch : FreezerTableBatch) : Except Err FreezerTableBatch :=
  if item ≠ batch.curItem then .error (.errOutOrderInsertion item batch.curItem)
  else
    match (if batch.t.noSnappy then some blob else sn.encode blob) with
    | none => .error .snappy
    | some data => batch.appendItem due due' data

end FreezerTableBatch

end GoEthereum.Rawdb

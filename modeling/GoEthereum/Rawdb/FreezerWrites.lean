import GoEthereum.Rawdb.FreezerReads

/-!
# Writes to a table

Each operation that changes a table keeps its items `Laid` out in its files: an append adds
an item at the end, `truncateHead` takes the last ones away, `truncateTail` the files of
the first ones, and a table that was closed is found again as it was.
-/

namespace GoEthereum.Rawdb

open FreezerTable List Function

variable {t : FreezerTable} {zs ps : List (Nat × Bytes)}

variable {due : Bool} {b b' : FreezerTableBatch}

/-! ## Opening files -/

/-- A file that exists is opened, or was open, and keeps its contents. -/
theorem openFile_exists {num : Nat} {d : Bytes} (hdata : t.data num = some d) {opener : Opener}
    (hopener : opener ≠ .truncated) :
    t.openFile num opener = .ok { t with files := update t.files num true } := by
  rw [openFile]
  by_cases hopen : t.files num = true
  · rw [if_pos hopen, ← hopen, update_eq_self]
  rw [if_neg hopen]
  cases opener with
  | forAppend =>
    have hsame : update t.data num (some ((t.data num).getD [])) = t.data := by
      rw [hdata]
      show update t.data num (some d) = t.data
      rw [← hdata, update_eq_self]
    dsimp only
    rw [hsame]
  | forReadOnly =>
    dsimp only
    rw [hdata]
  | truncated => exact absurd rfl hopener

theorem openFile_truncated {num : Nat} (h : t.files num = false) :
    t.openFile num .truncated = .ok { t with
      files := update t.files num true
      data := update t.data num (some []) } := by
  rw [openFile, h, if_neg Bool.false_ne_true]

/-! ## Syncing -/

theorem writeMeta_metaFile (h : t.metadata.version = freezerVersion) :
    t.writeMeta.metaFile = t.writeMeta.metadata := by
  show ({ t.metadata with version := freezerVersion } : FreezerTableMeta) = t.metadata
  rw [← h]

theorem Laid.setFlushOffset (h : Laid t zs ps) (hwrite : t.readonly = false) (offset : Nat) :
    Laid (t.setFlushOffset offset) zs ps := by
  refine { h with metaFile := ?metaFile, flushed := ?flushed }
  case metaFile => exact writeMeta_metaFile h.version
  case flushed =>
    intro hread
    exact absurd (hwrite.symm.trans hread) Bool.false_ne_true

theorem Laid.doSync (h : Laid t zs ps) (hwrite : t.readonly = false) :
    t.doSync = .ok (t.setFlushOffset t.index.length) := by
  rw [FreezerTable.doSync, hwrite, h.opened]
  rfl

/-! ## Batches -/

/-- What no append changes. -/
structure Kept (t t' : FreezerTable) : Prop where
  itemOffset : t'.itemOffset = t.itemOffset
  itemHidden : t'.itemHidden = t.itemHidden
  noSnappy : t'.noSnappy = t.noSnappy
  maxFileSize : t'.maxFileSize = t.maxFileSize

theorem Kept.trans {t t' t'' : FreezerTable} (h : Kept t t') (h' : Kept t' t'') : Kept t t'' :=
  ⟨h'.itemOffset.trans h.itemOffset, h'.itemHidden.trans h.itemHidden,
    h'.noSnappy.trans h.noSnappy, h'.maxFileSize.trans h.maxFileSize⟩

/-- A batch on a table with the items `zs`, whose buffers hold the items `ps`. -/
structure Buffered (b : FreezerTableBatch) (zs ps : List (Nat × Bytes)) : Prop where
  laid : Laid b.t zs ps
  data : b.dataBuffer = ps.flatMap Prod.snd
  index : b.indexBuffer = marshalAll (ends b.t.headId b.t.headBytes ps)
  curItem : b.curItem = b.t.items + ps.length

theorem contents_eq_all {f : Nat} {zs : List (Nat × Bytes)} (h : ∀ z ∈ zs, z.1 = f) :
    contents f zs = zs.flatMap Prod.snd := by
  rw [contents, filter_eq_self.mpr]
  intro z hz
  rw [decide_eq_true_eq]
  exact h z hz

/-- Items whose first one is in another file start at the front of that file. -/
theorem ends_restart {f g o : Nat} {zs : List (Nat × Bytes)}
    (hzs : ∀ z, zs.head? = some z → z.1 = g) (hne : g ≠ f) : ends f o zs = ends g 0 zs := by
  cases zs with
  | nil => rfl
  | cons z zs =>
    obtain rfl : z.1 = g := hzs z rfl
    rw [ends, ends, if_neg hne, ite_self]

/-- The index after the pending items are written. -/
theorem Laid.ends_pending (h : Laid t zs ps) :
    ends t.tailId 0 (zs ++ ps) = ends t.tailId 0 zs ++ ends t.headId t.headBytes ps := by
  obtain ⟨m, hm, hrest⟩ := steps_append.mp h.steps
  rw [ends_append, hm.endState, ite_self, Nat.zero_add, h.headBytes]
  show _ ++ ends m (contents m zs).length ps = _
  by_cases hne : t.headId = m
  · rw [hne]
  have hnil : contents t.headId zs = [] := by
    refine contents_eq_nil fun z hz => ?_
    have hle := (hm.bounds z hz).2
    have hle' := hrest.le
    omega
  rw [ends_restart (fun p hp => h.pending p (mem_of_mem_head? hp)) hne, hnil]
  rfl

theorem Buffered.newBatch (h : Laid t zs []) : Buffered t.newBatch zs [] :=
  ⟨h, rfl, rfl, rfl⟩

/-- `commit` writes the pending items, unless the table is for reading only. -/
theorem Buffered.commit (h : Buffered b zs ps) (due : Bool) :
    match b.commit due with
    | .ok b' => Buffered b' (zs ++ ps) [] ∧ Kept b.t b'.t ∧ b'.t.headId = b.t.headId ∧
        b'.t.readonly = b.t.readonly ∧ b.t.readonly = false
    | .error _ => b.t.readonly = true := by
  have hl := h.laid
  have hhead : b.t.data b.t.headId = some (contents b.t.headId zs) :=
    hl.data _ hl.steps.le le_rfl
  have hall : contents b.t.headId ps = b.dataBuffer := by
    rw [h.data, contents_eq_all hl.pending]
  rw [FreezerTableBatch.commit]
  dsimp only
  by_cases hread : b.t.readonly = true
  · rw [if_pos hread]
    exact hread
  rw [if_neg hread]
  have hwrite : b.t.readonly = false := by
    rwa [Bool.not_eq_true] at hread
  -- the table with the buffers written
  have hwritten : Laid { b.t with
      data := update b.t.data b.t.headId
        (some ((b.t.data b.t.headId).getD [] ++ b.dataBuffer))
      index := b.t.index ++ b.indexBuffer
      headBytes := b.t.headBytes + b.dataBuffer.length
      items := b.curItem } (zs ++ ps) [] := by
    refine { hl with
      index := ?index, steps := ?steps, pending := ?pending, data := ?data,
      headBytes := ?headBytes, items := ?items, hidden := ?hidden, flushed := ?flushed,
      sizes := ?sizes, room := ?room }
    case index =>
      show b.t.index ++ b.indexBuffer = _
      rw [hl.index, h.index, ← marshalAll_append, cons_append, ← hl.ends_pending]
    case steps =>
      rw [append_nil]
      exact hl.steps
    case pending =>
      intro p hp
      cases hp
    case data =>
      intro f hf hf'
      show update _ _ _ f = _
      by_cases hfile : f = b.t.headId
      · rw [hfile, update_self, hhead, contents_append, hall]
        rfl
      · have hnone : contents f ps = [] := contents_eq_nil fun p hp heq =>
          hfile (heq.symm.trans (hl.pending p hp))
        rw [update_of_ne hfile, hl.data f hf hf', contents_append, hnone, append_nil]
    case headBytes =>
      show b.t.headBytes + b.dataBuffer.length = (contents b.t.headId (zs ++ ps)).length
      rw [contents_append, hall, length_append, hl.headBytes]
    case items =>
      show b.curItem = b.t.itemOffset + (zs ++ ps).length
      rw [h.curItem, hl.items, length_append, Nat.add_assoc]
    case hidden =>
      refine ⟨hl.hidden.1, hl.hidden.2.trans ?_⟩
      show b.t.items ≤ b.curItem
      rw [h.curItem]
      exact Nat.le_add_right _ _
    case flushed =>
      intro hread'
      exact absurd hread' hread
    case sizes =>
      rw [append_nil]
      exact hl.sizes
    case room =>
      rw [append_nil]
      exact hl.room
  cases due with
  | false => exact ⟨⟨hwritten, rfl, rfl, rfl⟩, ⟨rfl, rfl, rfl, rfl⟩, rfl, rfl, hwrite⟩
  | true =>
    rw [if_pos rfl, hwritten.doSync hwrite]
    exact ⟨⟨hwritten.setFlushOffset hwrite _, rfl, rfl, rfl⟩, ⟨rfl, rfl, rfl, rfl⟩, rfl, rfl, hwrite⟩

/-- What can be appended: it fits a file, and only without compression is it empty. -/
structure Storable (t : FreezerTable) (data : Bytes) : Prop where
  length : data.length < 2 ^ 32
  fits : t.noSnappy = true → data.length ≤ t.maxFileSize
  nonempty : t.noSnappy = false → data ≠ []

/-- One more item of the head file. -/
theorem ends_concat {h o : Nat} {ps : List (Nat × Bytes)} (hps : ∀ p ∈ ps, p.1 = h) (data : Bytes) :
    ends h o (ps ++ [(h, data)]) =
      ends h o ps ++ [⟨h, o + (ps.flatMap Prod.snd).length + data.length⟩] := by
  induction ps generalizing o with
  | nil =>
    show [(⟨h, (if h = h then o else 0) + data.length⟩ : IndexEntry)] = _
    rw [if_pos rfl]
    rfl
  | cons p ps ih =>
    obtain ⟨f, y⟩ := p
    obtain rfl : f = h := hps _ mem_cons_self
    rw [cons_append, ends, ends, if_pos rfl, flatMap_cons, length_append,
      ih fun p hp => hps p (mem_cons_of_mem _ hp), ← Nat.add_assoc]
    rfl

theorem contents_concat (f h : Nat) (zs : List (Nat × Bytes)) (data : Bytes) :
    contents f (zs ++ [(h, data)]) = contents f zs ++ if h = f then data else [] := by
  rw [contents_append, contents_cons]
  show _ ++ (_ ++ []) = _
  rw [append_nil]

/-- An item is put to the buffers, in the file of the head. -/
theorem Buffered.put (h : Buffered b zs ps) {data : Bytes}
    (hfit : b.t.headBytes + b.dataBuffer.length + data.length < 2 ^ 32)
    (hroom : b.t.noSnappy = true → b.t.headBytes + b.dataBuffer.length + data.length ≤ b.t.maxFileSize) :
    Buffered (b.put data (b.t.headBytes + b.dataBuffer.length)) zs
      (ps ++ [(b.t.headId, data)]) := by
  have hl := h.laid
  have hlen : (contents b.t.headId (zs ++ ps)).length = b.t.headBytes + b.dataBuffer.length := by
    rw [contents_append, length_append, contents_eq_all hl.pending, ← h.data, hl.headBytes]
  constructor
  case laid =>
    show Laid b.t zs (ps ++ [(b.t.headId, data)])
    refine { hl with steps := ?steps, pending := ?pending, sizes := ?sizes, room := ?room }
    case steps =>
      rw [← append_assoc]
      exact steps_append.mpr ⟨b.t.headId, hl.steps, .inl rfl, rfl⟩
    case pending =>
      intro p hp
      rcases mem_append.mp hp with hp | hp
      · exact hl.pending p hp
      · rw [mem_singleton.mp hp]
    case sizes =>
      intro f
      rw [← append_assoc, contents_concat]
      by_cases hf : b.t.headId = f
      · rw [if_pos hf, length_append, ← hf, hlen]
        exact hfit
      · rw [if_neg hf, append_nil]
        exact hl.sizes f
    case room =>
      intro hsnappy f
      rw [← append_assoc, contents_concat]
      by_cases hf : b.t.headId = f
      · rw [if_pos hf, length_append, ← hf, hlen]
        exact hroom hsnappy
      · rw [if_neg hf, append_nil]
        exact hl.room hsnappy f
  case data =>
    show b.dataBuffer ++ data = _
    rw [h.data, flatMap_append, flatMap_cons]
    show _ = _ ++ (data ++ [])
    rw [append_nil]
  case index =>
    show b.indexBuffer ++ IndexEntry.marshal _ =
      marshalAll (ends b.t.headId b.t.headBytes (ps ++ [(b.t.headId, data)]))
    rw [Nat.mod_eq_of_lt hfit, h.index, ends_concat hl.pending, marshalAll_append, ← h.data,
      marshalAll_cons]
    show _ = _ ++ (_ ++ [])
    rw [append_nil]
  case curItem =>
    show b.curItem + 1 = b.t.items + _
    rw [h.curItem, length_append]
    rfl

/-- `advanceHead` opens an empty file after the head. -/
theorem Laid.advanceHead (h : Laid t zs []) (hwrite : t.readonly = false)
    (hhead : t.headId + 1 < 2 ^ 32) :
    ∃ t', t.advanceHead = .ok t' ∧ Kept t t' ∧ t'.headId = t.headId + 1 ∧ t'.headBytes = 0 ∧
      t'.items = t.items ∧ t'.readonly = false ∧ t'.closed = false ∧
      ∀ data : Bytes, data ≠ [] → data.length < 2 ^ 32 →
        (t.noSnappy = true → data.length ≤ t.maxFileSize) →
        Laid t' zs [(t.headId + 1, data)] := by
  have hlast : t.data t.headId = some (contents t.headId zs) := h.data _ h.steps.le le_rfl
  have hnew : t.files (t.headId + 1) = false := by
    rw [← Bool.not_eq_true, h.files]
    omega
  have hsteps : Steps t.tailId zs t.headId := by
    have hsteps := h.steps
    rwa [append_nil] at hsteps
  have hopen : t.advanceHead = .ok { t.setFlushOffset t.index.length with
      headBytes := 0
      headId := t.headId + 1
      data := update t.data (t.headId + 1) (some [])
      files := update (update (update t.files (t.headId + 1) true)
        t.headId false) t.headId true } := by
    have hkeep : update t.data (t.headId + 1) (some []) t.headId =
        some (contents t.headId zs) := by
      rw [update_of_ne (Nat.lt_succ_self _).ne, hlast]
    have hid : ((t.setFlushOffset t.index.length).headId + 1) % 2 ^ 32 = t.headId + 1 :=
      Nat.mod_eq_of_lt hhead
    have hnew' : (t.setFlushOffset t.index.length).files (t.headId + 1) = false := hnew
    rw [FreezerTable.advanceHead, h.doSync hwrite]
    dsimp only
    rw [hid, openFile_truncated hnew']
    dsimp only
    rw [openFile_exists hkeep Opener.noConfusion]
    rfl
  refine ⟨_, hopen, ⟨rfl, rfl, rfl, rfl⟩, rfl, rfl, rfl, hwrite, h.opened, ?_⟩
  intro data hne hlen hfits
  have hbefore : ∀ z ∈ zs, z.1 ≠ t.headId + 1 := by
    intro z hz
    have hle := (hsteps.bounds z hz).2
    omega
  have hold := h.setFlushOffset hwrite t.index.length
  refine { hold with
    steps := ?steps, pending := ?pending, data := ?data, files := ?files, headBytes := ?headBytes,
    sizes := ?sizes, room := ?room }
  case steps => exact steps_append.mpr ⟨t.headId, hsteps, .inr ⟨rfl, hne⟩, rfl⟩
  case pending =>
    intro p hp
    rw [mem_singleton.mp hp]
  case data =>
    intro f hf hf'
    show update t.data (t.headId + 1) (some []) f = _
    by_cases hfile : f = t.headId + 1
    · rw [hfile, update_self, contents_eq_nil hbefore]
    · rw [update_of_ne hfile]
      exact h.data f hf (by
        have hf'' : f ≤ t.headId + 1 := hf'
        omega)
  case files =>
    intro f
    show update (update (update t.files (t.headId + 1) true)
      t.headId false) t.headId true f = true ↔ t.tailId ≤ f ∧ f ≤ t.headId + 1
    have hle := hsteps.le
    by_cases hfile : f = t.headId
    · rw [hfile, update_self]
      constructor
      · intro _
        omega
      · exact fun _ => rfl
    · rw [update_of_ne hfile, update_of_ne hfile]
      by_cases hfile' : f = t.headId + 1
      · rw [hfile', update_self]
        constructor
        · intro _
          omega
        · exact fun _ => rfl
      · rw [update_of_ne hfile', h.files]
        omega
  case headBytes =>
    show 0 = (contents (t.headId + 1) zs).length
    rw [contents_eq_nil hbefore]
    rfl
  case sizes =>
    intro f
    rw [contents_concat]
    by_cases hf : t.headId + 1 = f
    · rw [if_pos hf, ← hf, contents_eq_nil hbefore]
      exact hlen
    · have hsize := h.sizes f
      rw [append_nil] at hsize
      rwa [if_neg hf, append_nil]
  case room =>
    intro hsnappy f
    rw [contents_concat]
    by_cases hf : t.headId + 1 = f
    · rw [if_pos hf, ← hf, contents_eq_nil hbefore]
      exact hfits hsnappy
    · have hsize := h.room hsnappy f
      rw [append_nil] at hsize
      rwa [if_neg hf, append_nil]

/-- `maybeCommit` writes the pending items or leaves them. -/
theorem Buffered.maybeCommit (h : Buffered b zs ps) (due : Bool) :
    match b.maybeCommit due with
    | .ok b' => (∃ zs' ps', Buffered b' zs' ps' ∧ zs' ++ ps' = zs ++ ps) ∧ Kept b.t b'.t ∧
        b'.t.headId = b.t.headId ∧ b'.t.readonly = b.t.readonly
    | .error _ => b.t.readonly = true := by
  rw [FreezerTableBatch.maybeCommit]
  by_cases hlong : b.dataBuffer.length > freezerBatchBufferLimit
  · rw [if_pos hlong]
    have hcommit := h.commit due
    generalize b.commit due = r at hcommit ⊢
    cases r with
    | error err => exact hcommit
    | ok b' =>
      obtain ⟨hb', hkept, hid, hread, -⟩ := hcommit
      exact ⟨⟨zs ++ ps, [], hb', append_nil _⟩, hkept, hid, hread⟩
  · rw [if_neg hlong]
    exact ⟨⟨zs, ps, h, rfl⟩, ⟨rfl, rfl, rfl, rfl⟩, rfl, rfl⟩

/-- `appendItem` adds one item to those of the table and the batch. -/
theorem Buffered.appendItem (h : Buffered b zs ps) {data : Bytes} (hdata : Storable b.t data)
    (hhead : b.t.headId + 1 < 2 ^ 32) (due due' : Bool) :
    match b.appendItem due due' data with
    | .ok b' => (∃ zs' ps' file, Buffered b' zs' ps' ∧ zs' ++ ps' = zs ++ ps ++ [(file, data)]) ∧
        Kept b.t b'.t ∧ b'.t.headId ≤ b.t.headId + data.length ∧ b'.t.readonly = b.t.readonly
    | .error _ => b.t.readonly = true := by
  have hl := h.laid
  have hmax := hl.maxSize
  have hlen : (contents b.t.headId (zs ++ ps)).length = b.t.headBytes + b.dataBuffer.length := by
    rw [contents_append, length_append, contents_eq_all hl.pending, ← h.data, hl.headBytes]
  rw [FreezerTableBatch.appendItem]
  by_cases hover : b.t.headBytes + b.dataBuffer.length + data.length > b.t.maxFileSize
  · -- the item starts a new file
    rw [if_pos hover, FreezerTableBatch.nextFile]
    have hcommit := h.commit due
    generalize b.commit due = r at hcommit ⊢
    cases r with
    | error err => exact hcommit
    | ok b₁ =>
      obtain ⟨hb₁, hkept, hid, hread, hwrite⟩ := hcommit
      obtain ⟨t₂, hadvance, hkept', hid', hbytes, hitems, hwrite', -, hlaid⟩ :=
        hb₁.laid.advanceHead (hread.trans hwrite) (by rw [hid]; exact hhead)
      dsimp only
      rw [hadvance]
      dsimp only
      have hne : data ≠ [] := by
        cases hsnappy : b.t.noSnappy with
        | false => exact hdata.nonempty hsnappy
        | true =>
          rintro rfl
          have hroom := hl.room hsnappy b.t.headId
          rw [hlen] at hroom
          exact absurd hroom (Nat.not_le.mpr hover)
      have hbuffered : Buffered (FreezerTableBatch.put data 0 { b₁ with t := t₂ })
          (zs ++ ps) [(b.t.headId + 1, data)] := by
        constructor
        case laid =>
          rw [← hid]
          refine hlaid data hne hdata.length ?_
          rw [hkept.noSnappy, hkept.maxFileSize]
          exact hdata.fits
        case data =>
          show b₁.dataBuffer ++ data = _
          rw [hb₁.data]
          show data = data ++ []
          rw [append_nil]
        case index =>
          show b₁.indexBuffer ++ IndexEntry.marshal _ = marshalAll (ends t₂.headId t₂.headBytes _)
          have hsmall : (0 + data.length) % 2 ^ 32 = data.length := by
            rw [Nat.zero_add, Nat.mod_eq_of_lt hdata.length]
          rw [hb₁.index, hsmall, hbytes, hid', hid]
          show IndexEntry.marshal _ = IndexEntry.marshal ⟨_, (if _ = _ then 0 else 0) + _⟩ ++ []
          rw [if_pos rfl, Nat.zero_add, append_nil]
        case curItem =>
          show b₁.curItem + 1 = t₂.items + 1
          rw [hb₁.curItem, hitems]
          rfl
      have hmaybe := hbuffered.maybeCommit due'
      generalize (FreezerTableBatch.put data 0 { b₁ with t := t₂ }).maybeCommit due' = r at hmaybe ⊢
      cases r with
      | error err => cases hmaybe.symm.trans hwrite'
      | ok b' =>
        obtain ⟨⟨zs', ps', hb', heq⟩, hkept'', hid'', hread'⟩ := hmaybe
        refine ⟨⟨zs', ps', b.t.headId + 1, hb', heq⟩, hkept.trans (hkept'.trans hkept''), ?_, ?_⟩
        · have hpos := length_pos_iff.mpr hne
          have hsame : b'.t.headId = t₂.headId := hid''
          omega
        · exact hread'.trans (hwrite'.trans hwrite.symm)
  · rw [if_neg hover]
    have hroom := Nat.not_lt.mp hover
    have hmaybe := (h.put (hroom.trans_lt hmax) fun _ => hroom).maybeCommit due'
    generalize (b.put data (b.t.headBytes + b.dataBuffer.length)).maybeCommit due' = r at hmaybe ⊢
    cases r with
    | error err => exact hmaybe
    | ok b' =>
      obtain ⟨⟨zs', ps', hb', heq⟩, hkept, hid, hread⟩ := hmaybe
      refine ⟨⟨zs', ps', b.t.headId, hb', ?_⟩, hkept, ?_, hread⟩
      · rw [heq, append_assoc]
      · rw [hid]
        exact Nat.le_add_right _ _

end GoEthereum.Rawdb

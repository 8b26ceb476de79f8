import GoEthereum.Rawdb.FreezerTruncate

/-!
# Opening a table

`newTable` on the files that `Close` leaves finds the table as it was: the index is in
order, so that `repair` has nothing to cut.
-/

namespace GoEthereum.Rawdb

open FreezerTable List Function

variable {t : FreezerTable} {zs : List (Nat × Bytes)}

variable {dir : Dir} {f g maxFileSize num o : Nat}

/-! ## The index -/

theorem checkIndexItems_ends {y : Bytes} (h : g = f ∨ g = f + 1 ∧ y ≠ []) :
    checkIndexItems ⟨f, o⟩ ⟨g, (if g = f then o else 0) + y.length⟩ = true := by
  rw [checkIndexItems, Bool.not_eq_true', Bool.or_eq_false_iff, Bool.or_eq_false_iff,
    decide_eq_false_iff_not, decide_eq_false_iff_not, decide_eq_false_iff_not]
  rcases h with rfl | ⟨rfl, hne⟩
  · rw [if_pos rfl]
    refine ⟨⟨fun h => h.1 rfl, ?_⟩, fun h => Nat.succ_ne_self g h.1.symm⟩
    rintro ⟨-, hlt⟩
    exact absurd (Nat.le_add_right o y.length) (Nat.not_le.mpr hlt)
  · rw [if_neg (Nat.succ_ne_self f), Nat.zero_add]
    refine ⟨⟨fun h => h.2 rfl, fun h => Nat.succ_ne_self f h.1⟩, ?_⟩
    rintro ⟨-, hzero⟩
    exact hne (eq_nil_of_length_eq_zero hzero)

theorem inOrder_ends (h : Steps f zs g) : inOrder ⟨f, o⟩ (ends f o zs) = zs.length := by
  induction zs generalizing f o with
  | nil => rfl
  | cons z zs ih =>
    rw [ends, inOrder, if_pos (checkIndexItems_ends h.1), ih h.2]
    rfl

theorem checkEntries_ends {off : Nat} (h : Steps f zs g) :
    checkEntries (⟨f, off⟩ :: ends f 0 zs) = zs.length + 1 := by
  cases zs with
  | nil => rfl
  | cons z zs =>
    have hnext : ¬ (z.1 ≠ f ∧ z.1 ≠ f + 1) := by
      rintro ⟨hne, hne'⟩
      rcases h.1 with heq | ⟨heq, -⟩
      · exact hne heq
      · exact hne' heq
    rw [ends, checkEntries, if_neg hnext, inOrder_ends h.2]
    rfl

/-- The files of a table that is closed. -/
structure Stored (dir : Dir) (tail off head hidden : Nat) (zs : List (Nat × Bytes)) : Prop where
  index : dir.index = some (marshalAll (⟨tail, off⟩ :: ends tail 0 zs))
  metadata : dir.metadata = some ⟨freezerVersion, hidden, (zs.length + 1) * indexEntrySize⟩
  steps : Steps tail zs head
  data : ∀ f, tail ≤ f → f ≤ head → dir.data f = some (contents f zs)
  fits : ∀ e ∈ (⟨tail, off⟩ : IndexEntry) :: ends tail 0 zs, e.Fits
  hidden : off ≤ hidden

/-- What a table that is being opened has of the files of a closed one. -/
structure Opening (t : FreezerTable) (tail off head hidden : Nat) (zs : List (Nat × Bytes)) :
    Prop where
  index : t.index = marshalAll (⟨tail, off⟩ :: ends tail 0 zs)
  metadata : t.metadata = ⟨freezerVersion, hidden, (zs.length + 1) * indexEntrySize⟩
  steps : Steps tail zs head
  data : ∀ f, tail ≤ f → f ≤ head → t.data f = some (contents f zs)
  fits : ∀ e ∈ (⟨tail, off⟩ : IndexEntry) :: ends tail 0 zs, e.Fits
  hidden : off ≤ hidden

variable {tail off head hidden : Nat}

section

variable (h : Opening t tail off head hidden zs)
include h

theorem Opening.index_length :
    t.index.length = (zs.length + 1) * indexEntrySize := by
  rw [h.index, marshalAll_length, length_cons, ends_length]
  rfl

theorem Opening.repairSize : t.repairSize = .ok t := by
  have hlen := h.index_length
  have hne : ¬ t.index.length = 0 := by
    rw [hlen, indexEntrySize]
    omega
  have hmod : ¬ t.index.length % indexEntrySize ≠ 0 := by
    rw [hlen, Nat.mul_mod_left]
    exact fun hzero => hzero rfl
  rw [FreezerTable.repairSize, if_neg hne, if_neg hmod]

theorem Opening.repairIndex : t.repairIndex = .ok t := by
  have hlen := h.index_length
  have hall := unmarshalAll_marshalAll h.fits
  have hdiv : t.index.length / indexEntrySize =
      ((⟨tail, off⟩ : IndexEntry) :: ends tail 0 zs).length := by
    rw [hlen, length_cons, ends_length]
    exact Nat.mul_div_cancel _ (by decide)
  have hcheck : t.checkIndex t.index.length = .ok (t.index.length, t) := by
    rw [checkIndex, hdiv, h.index, hall, checkEntries_ends h.steps, ← h.index, if_pos hlen.symm]
  rw [FreezerTable.repairIndex, hcheck]
  dsimp only
  have hversion : ¬ freezerVersion = freezerTableV1 := by decide
  have hpos : ¬ (t.index.length = indexEntrySize ∧ (zs.length + 1) * indexEntrySize = 0) := by
    rw [indexEntrySize]
    omega
  rw [h.metadata]
  dsimp only
  rw [if_neg hversion, if_neg hpos, if_pos hlen]

theorem Opening.loadTail :
    t.loadTail = .ok { t with tailId := tail, itemOffset := off, itemHidden := hidden } := by
  have hfirst : IndexEntry.unmarshalBinary (t.index.take indexEntrySize) = ⟨tail, off⟩ := by
    have htake := marshalAll_take (⟨tail, off⟩ :: ends tail 0 zs) 1
    rw [← h.index, take_succ_cons, take_zero] at htake
    show IndexEntry.unmarshalBinary (t.index.take (1 * 6)) = _
    rw [htake]
    have hone : marshalAll [(⟨tail, off⟩ : IndexEntry)] = IndexEntry.marshal ⟨tail, off⟩ :=
      append_nil _
    rw [hone, unmarshal_marshal (h.fits _ mem_cons_self)]
  rw [FreezerTable.loadTail]
  dsimp only
  rw [hfirst, h.metadata]
  dsimp only
  rw [if_neg (Nat.not_lt.mpr h.hidden)]

theorem Opening.lastIndex (htail : t.tailId = tail) :
    t.lastIndex = ⟨head, (contents head zs).length⟩ := by
  have hlen := h.index_length
  rw [FreezerTable.lastIndex]
  rcases Nat.eq_zero_or_pos zs.length with hzero | hpos
  · obtain rfl := eq_nil_of_length_eq_zero hzero
    obtain rfl : tail = head := h.steps
    rw [if_pos (by rw [hlen]; rfl), htail]
    rfl
  obtain ⟨n, hn⟩ := Nat.exists_eq_succ_of_ne_zero hpos.ne'
  have hne : ¬ t.index.length = indexEntrySize := by
    rw [hlen, indexEntrySize]
    omega
  have hdrop : t.index.length - indexEntrySize = (n + 1) * 6 := by
    rw [hlen, hn, indexEntrySize]
    omega
  obtain ⟨m, hm, hrest, hfrom⟩ := ends_from h.steps (k := n) (by omega)
  have hall : zs.take (n + 1) = zs := take_of_length_le hn.le
  have hnone : zs.drop (n + 1) = [] := drop_of_length_le hn.le
  rw [hnone] at hrest
  obtain rfl : m = head := hrest
  rw [if_neg hne, hdrop, h.index, marshalAll_drop, drop_succ_cons, hfrom, hnone, hall]
  show IndexEntry.unmarshalBinary (IndexEntry.marshal _ ++ []) = _
  rw [append_nil]
  refine unmarshal_marshal (h.fits _ (mem_cons_of_mem _ ?_))
  refine mem_of_mem_drop (i := n) ?_
  rw [hfrom, hall]
  exact mem_cons_self

/-! ## The data files -/

end

theorem headOpener_ne (t : FreezerTable) : t.headOpener ≠ .truncated := by
  rw [headOpener]
  by_cases hread : t.readonly = true
  · rw [if_pos hread]
    exact Opener.noConfusion
  · rw [if_neg hread]
    exact Opener.noConfusion

/-- The files from `num` on are opened. -/
theorem openFiles_files {n : Nat} (hdata : ∀ f, num ≤ f → f < num + n → (t.data f).isSome = true) :
    ∃ files, openFiles n num t = .ok { t with files := files } ∧
      ∀ f, files f = true ↔ t.files f = true ∨ num ≤ f ∧ f < num + n := by
  induction n generalizing num t with
  | zero =>
    refine ⟨t.files, rfl, fun f => ?_⟩
    constructor
    · exact .inl
    · rintro (hf | hf)
      · exact hf
      · omega
  | succ n ih =>
    obtain ⟨d, hd⟩ := Option.isSome_iff_exists.mp (hdata num le_rfl (by omega))
    have hdata' : ∀ f, num + 1 ≤ f → f < num + 1 + n →
        (({ t with files := update t.files num true } : FreezerTable).data f).isSome =
          true := fun f hf hf' => hdata f (by omega) (by omega)
    obtain ⟨files, hfiles, hiff⟩ := ih hdata'
    rw [openFiles, openFile_exists hd Opener.noConfusion]
    refine ⟨files, hfiles, fun f => ?_⟩
    rw [hiff]
    show update t.files num true f = true ∨ _ ↔ _
    by_cases hf : f = num
    · rw [hf, update_self]
      simp
    · rw [update_of_ne hf]
      have hrange : num + 1 ≤ f ∧ f < num + 1 + n ↔ num ≤ f ∧ f < num + (n + 1) := by omega
      rw [hrange]

/-- Where no open file is to be released, nothing changes. -/
theorem release_none {p : Nat → Prop} [DecidablePred p] (h : ∀ f, t.files f = true → ¬ p f)
    (remove : Bool) :
    { t with
      files := fun f => t.files f && !decide (p f)
      data := fun f => if remove && t.files f && decide (p f) then none else t.data f } = t := by
  have hfiles : (fun f => t.files f && !decide (p f)) = t.files := by
    funext f
    cases hf : t.files f with
    | false => rfl
    | true => rw [decide_eq_false (h f hf)]; rfl
  have hdata : (fun f => if remove && t.files f && decide (p f) then none else t.data f) =
      t.data := by
    funext f
    refine if_neg ?_
    cases hf : t.files f with
    | false => simp
    | true => simp [h f hf]
  rw [hfiles, hdata]

/-- `preopen` opens the files from the tail to the head. -/
theorem preopen_files (hle : t.tailId ≤ t.headId) (hfiles : ∀ f, t.files f = true → f = t.headId)
    (hdata : ∀ f, t.tailId ≤ f → f ≤ t.headId → (t.data f).isSome = true) :
    ∃ files, t.preopen = .ok { t with files := files } ∧
      ∀ f, files f = true ↔ t.tailId ≤ f ∧ f ≤ t.headId := by
  have hdata' : ∀ f, t.tailId ≤ f → f < t.tailId + (t.headId - t.tailId) →
      ((t.releaseFilesAfter 0 false).data f).isSome = true := by
    intro f hf hf'
    exact hdata f hf (by omega)
  obtain ⟨files, hopen, hiff⟩ := openFiles_files hdata'
  obtain ⟨d, hd⟩ := Option.isSome_iff_exists.mp (hdata t.headId hle le_rfl)
  have hopen' : openFiles (t.headId - t.tailId) t.tailId (t.releaseFilesAfter 0 false) =
      .ok { t with files := files } := hopen
  rw [preopen, hopen']
  dsimp only
  rw [openFile_exists (t := { t with files := files }) hd (headOpener_ne _)]
  refine ⟨_, rfl, fun f => ?_⟩
  by_cases hf : f = t.headId
  · rw [hf]
    show update files t.headId true t.headId = true ↔ _
    rw [update_self]
    simp [hle]
  show update files t.headId true f = true ↔ _
  rw [update_of_ne hf, hiff]
  constructor
  · rintro (hfile | hfile)
    · exact absurd (hfiles f (Bool.and_eq_true_iff.mp hfile).1) hf
    · omega
  · intro hfile
    exact .inr (by omega)

theorem syncHead_same {fuel contentSize : Nat} {last : IndexEntry} (h : last.offset = contentSize) :
    syncHead (fuel + 1) t last contentSize = .ok (t, last) := if_pos h

/-- The table with its tail and its head found. -/
def FreezerTable.located (t : FreezerTable) (tail off head hidden : Nat)
    (zs : List (Nat × Bytes)) (files : Nat → Bool) : FreezerTable :=
  { t with
    tailId := tail
    itemOffset := off
    itemHidden := hidden
    items := off + zs.length
    headBytes := (contents head zs).length
    headId := head
    files := files }

section

variable (h : Opening t tail off head hidden zs)
include h

/-- The last steps of `repair`, on a table with only its head open. -/
theorem Opening.finishRepair (htail : t.tailId = tail)
    (hoff : t.itemOffset = off) (hhidden : t.itemHidden = hidden)
    (hone : ∀ f, t.files f = true → f = head) :
    ∃ files, t.finishRepair ⟨head, (contents head zs).length⟩ =
        .ok (t.located tail off head hidden zs files) ∧
      ∀ f, files f = true ↔ tail ≤ f ∧ f ≤ head := by
  subst htail hoff hhidden
  have hcount : t.index.length / indexEntrySize - 1 = zs.length := by
    rw [h.index_length, Nat.mul_div_cancel _ (by decide)]
    rfl
  -- no file but the head is open, so nothing is released
  generalize hlocated : t.located t.tailId t.itemOffset head t.itemHidden zs t.files = t₁
  have hone' : ∀ f, t₁.files f = true → f = head := by
    rw [← hlocated]
    exact hone
  have hfinish : t.finishRepair ⟨head, (contents head zs).length⟩ =
      ((t₁.releaseFilesAfter head true).releaseFilesBefore t.tailId true).preopen := by
    rw [FreezerTable.finishRepair, ← hlocated]
    dsimp only
    rw [h.data head h.steps.le le_rfl, Option.getD_some, hcount]
    rfl
  rw [hfinish, releaseFilesAfter, release_none (fun f hf => (hone' f hf).le.not_gt) true,
    releaseFilesBefore, release_none (fun f hf => (h.steps.le.trans (hone' f hf).ge).not_gt) true]
  subst hlocated
  refine preopen_files (t := t.located t.tailId t.itemOffset head t.itemHidden zs t.files)
    h.steps.le hone ?_
  intro f hf hf'
  have hdata : t.data f = some (contents f zs) := h.data f hf hf'
  show (t.data f).isSome = true
  rw [hdata]
  rfl

/-- The steps of `repair`, once the index and the tail are in order. -/
theorem Opening.repair_located {s t₁ t₂ t₃ : FreezerTable}
    (hsize : s.repairSize = .ok t₁) (hindex : t₁.repairIndex = .ok t₂)
    (hload : t₂.loadTail = .ok t₃)
    (hopen : t₃.openFile t₃.lastIndex.filenum t₃.headOpener = .ok t) (htail : t.tailId = tail)
    (hoff : t.itemOffset = off) (hhidden : t.itemHidden = hidden)
    (hone : ∀ f, t.files f = true → f = head) :
    ∃ files, s.repair = .ok (t.located tail off head hidden zs files) ∧
      ∀ f, files f = true ↔ tail ≤ f ∧ f ≤ head := by
  obtain ⟨files, hfinish, hiff⟩ := h.finishRepair htail hoff hhidden hone
  refine ⟨files, ?_, hiff⟩
  rw [FreezerTable.repair, hsize]
  dsimp only
  rw [hindex]
  dsimp only
  rw [hload]
  dsimp only
  rw [hopen]
  dsimp only
  rw [h.lastIndex htail]
  dsimp only
  rw [h.data head h.steps.le le_rfl, Option.getD_some, syncHead_same rfl]
  exact hfinish

/-- `repair` finds nothing to repair. -/
theorem Opening.repair (hfiles : ∀ f, t.files f = false) :
    ∃ files, t.repair = .ok (t.located tail off head hidden zs files) ∧
      ∀ f, files f = true ↔ tail ≤ f ∧ f ≤ head := by
  have hloaded : Opening { t with tailId := tail, itemOffset := off, itemHidden := hidden }
      tail off head hidden zs := ⟨h.index, h.metadata, h.steps, h.data, h.fits, h.hidden⟩
  have hopened : Opening { t with
      tailId := tail, itemOffset := off, itemHidden := hidden,
      files := update t.files head true } tail off head hidden zs :=
    ⟨h.index, h.metadata, h.steps, h.data, h.fits, h.hidden⟩
  refine hopened.repair_located h.repairSize h.repairIndex h.loadTail ?_ rfl rfl rfl ?_
  · rw [hloaded.lastIndex rfl]
    exact openFile_exists (t := { t with tailId := tail, itemOffset := off, itemHidden := hidden })
      (h.data head h.steps.le le_rfl) (headOpener_ne _)
  · intro f hf
    by_contra hne
    have hfile : update t.files head true f = true := hf
    rw [update_of_ne hne, hfiles] at hfile
    cases hfile

/-- The items of a table that was opened are in its files. -/
theorem Opening.laid {files : Nat → Bool}
    (hfiles : ∀ f, files f = true ↔ tail ≤ f ∧ f ≤ head) (hhidden : hidden ≤ off + zs.length)
    (hsizes : ∀ f, (contents f zs).length < 2 ^ 32) (hmax : t.maxFileSize < 2 ^ 32)
    (hroom : t.noSnappy = true → ∀ f, (contents f zs).length ≤ t.maxFileSize)
    (hmeta : t.metaFile = t.metadata) (hopen : t.closed = false) :
    Laid (t.located tail off head hidden zs files) zs [] := by
  constructor
  case index => exact h.index
  case steps =>
    rw [append_nil]
    exact h.steps
  case pending =>
    intro p hp
    cases hp
  case data => exact h.data
  case files => exact hfiles
  case headBytes => rfl
  case items => rfl
  case hidden => exact ⟨h.hidden, hhidden⟩
  case version => exact congrArg FreezerTableMeta.version h.metadata
  case virtualTail => exact congrArg FreezerTableMeta.virtualTail h.metadata
  case metaFile => exact hmeta
  case flushed =>
    intro _
    exact (congrArg FreezerTableMeta.flushOffset h.metadata).trans h.index_length.symm
  case sizes =>
    rw [append_nil]
    exact hsizes
  case room =>
    rw [append_nil]
    exact hroom
  case maxSize => exact hmax
  case opened => exact hopen

end

/-- The table found in the files of a closed one. -/
theorem Stored.repair (h : Stored dir tail off head hidden zs) (maxFileSize : Nat)
    (noSnappy readonly : Bool) :
    ∃ files, (unrepaired dir maxFileSize noSnappy readonly).repair =
        .ok ((unrepaired dir maxFileSize noSnappy readonly).located tail off head hidden zs files) ∧
      Opening ((unrepaired dir maxFileSize noSnappy readonly).located tail off head hidden zs
        files) tail off head hidden zs ∧
      ∀ f, files f = true ↔ tail ≤ f ∧ f ≤ head := by
  have hopening : Opening (unrepaired dir maxFileSize noSnappy readonly) tail off head hidden
      zs := by
    refine { h with index := ?index, metadata := ?metadata }
    case index =>
      show dir.index.getD [] = _
      rw [h.index]
      rfl
    case metadata =>
      show dir.metadata.getD _ = _
      rw [h.metadata]
      rfl
  obtain ⟨files, hrepair, hfiles⟩ := hopening.repair fun f => rfl
  exact ⟨files, hrepair,
    ⟨hopening.index, hopening.metadata, h.steps, h.data, h.fits, h.hidden⟩, hfiles⟩

/-- `newTable` finds the items of a closed table. -/
theorem Stored.newTable (h : Stored dir tail off head hidden zs)
    (hhidden : hidden ≤ off + zs.length) (hsizes : ∀ f, (contents f zs).length < 2 ^ 32)
    (hmax : maxFileSize < 2 ^ 32) {noSnappy : Bool}
    (hroom : noSnappy = true → ∀ f, (contents f zs).length ≤ maxFileSize) (hhead : head < 2 ^ 16)
    (hindex : (zs.length + 1) * indexEntrySize < 2 ^ 63) (readonly : Bool) :
    ∃ t, FreezerTable.newTable dir maxFileSize noSnappy readonly = .ok t ∧
      Laid t zs [] ∧ t.itemOffset = off ∧ t.itemHidden = hidden ∧ t.noSnappy = noSnappy ∧
      t.maxFileSize = maxFileSize ∧ t.Addressable := by
  obtain ⟨files, hrepair, hopening, hfiles⟩ := h.repair maxFileSize noSnappy readonly
  have hlaid : Laid ((unrepaired dir maxFileSize noSnappy readonly).located tail off head hidden
      zs files) zs [] := hopening.laid hfiles hhidden hsizes hmax hroom rfl rfl
  have haddr : ((unrepaired dir maxFileSize noSnappy readonly).located tail off head hidden zs
      files).Addressable := by
    refine ⟨hhead, (h.fits _ mem_cons_self).2, ?_⟩
    rw [hopening.index_length]
    exact hindex
  obtain ⟨size, hsize⟩ := hlaid.sizeNolock haddr
  have hfound : ¬ (readonly = true ∧ (dir.index = none ∨ dir.metadata = none)) := by
    rw [h.index, h.metadata]
    rintro ⟨-, hnone | hnone⟩
    · cases hnone
    · cases hnone
  refine ⟨_, ?_, hlaid, rfl, rfl, rfl, rfl, haddr⟩
  rw [FreezerTable.newTable, if_neg hfound, hrepair]
  dsimp only
  rw [hsize]

/-- A table is closed with all its items on disk. Of the number of removed items four bytes
are kept. -/
theorem Laid.Close (h : Laid t zs []) (hhead : t.headId < 2 ^ 16) :
    ∃ t' dir, t.Close = .ok (t', dir) ∧
      Stored dir t.tailId (t.itemOffset % 2 ^ 32) t.headId t.itemHidden zs := by
  have hlen : t.index.length = (zs.length + 1) * indexEntrySize := by
    rw [h.index, marshalAll_length, length_cons, ends_length]
    rfl
  -- the metadata is that of a table whose index is flushed
  have hsync : ∃ t₁, t.doSync = .ok t₁ ∧ t₁.index = t.index ∧ t₁.data = t.data ∧
      t₁.metaFile = ⟨freezerVersion, t.itemHidden, t.index.length⟩ := by
    cases hread : t.readonly with
    | false =>
      refine ⟨_, h.doSync hread, rfl, rfl, ?_⟩
      rw [(h.setFlushOffset hread _).metaFile, ← h.version, ← h.virtualTail]
      rfl
    | true =>
      refine ⟨t, ?_, rfl, rfl, ?_⟩
      · rw [FreezerTable.doSync, hread]
        rfl
      · rw [h.metaFile, ← h.version, ← h.virtualTail, ← h.flushed hread]
  obtain ⟨t₁, hsync, hindex, hdata, hmeta⟩ := hsync
  rw [FreezerTable.Close, hsync]
  refine ⟨_, _, rfl, ?_⟩
  constructor
  case index =>
    show some t₁.index = _
    rw [hindex, h.index, marshalAll_cons, marshalAll_cons, marshal_offset_mod]
  case metadata =>
    show some t₁.metaFile = _
    rw [hmeta, hlen]
  case steps => exact h.steps_nil
  case data =>
    show ∀ f, _ → _ → t₁.data f = _
    rw [hdata]
    exact h.data
  case fits =>
    intro e he
    rcases mem_cons.mp he with rfl | he
    · exact ⟨h.steps.le.trans_lt hhead, Nat.mod_lt _ (Nat.two_pow_pos 32)⟩
    · exact h.fits_ends hhead e he
  case hidden => exact (Nat.mod_le _ _).trans h.hidden.1

/-- `repairIndex` of an index with a first entry only. -/
theorem repairIndex_first (hindex : t.index = replicate 6 0)
    (hmeta : t.metadata = ⟨freezerVersion, 0, 0⟩) (hwrite : t.readonly = false) :
    t.repairIndex = .ok (t.setFlushOffset 6) := by
  have hlen : t.index.length = 6 := by
    rw [hindex]
    rfl
  have hcheck : t.checkIndex t.index.length = .ok (6, t) := by
    rw [checkIndex, hlen, hindex]
    exact if_pos rfl
  rw [repairIndex, hcheck]
  dsimp only
  rw [hmeta, hwrite]
  rfl

/-- The table of an empty directory, with its index and its first data file. -/
def created (maxFileSize : Nat) (noSnappy : Bool) : FreezerTable :=
  { unrepaired ⟨none, none, fun _ => none⟩ maxFileSize noSnappy false with
    index := replicate 6 0
    data := update (fun _ => none) 0 (some [])
    files := update (fun _ => false) 0 true
    metadata := ⟨freezerVersion, 0, 6⟩
    metaFile := ⟨freezerVersion, 0, 6⟩ }

theorem opening_created (maxFileSize : Nat) (noSnappy : Bool) :
    Opening (created maxFileSize noSnappy) 0 0 0 0 [] := by
  constructor
  case index => rfl
  case metadata => rfl
  case steps => rfl
  case data =>
    intro f _ hf
    obtain rfl := Nat.le_zero.mp hf
    rfl
  case fits =>
    intro e he
    rw [mem_singleton.mp he]
    exact ⟨by decide, by decide⟩
  case hidden => exact le_rfl

/-- A table in an empty directory. -/
theorem newTable_empty (hmax : maxFileSize < 2 ^ 32) (noSnappy : Bool) :
    ∃ t, newTable ⟨none, none, fun _ => none⟩ maxFileSize noSnappy false = .ok t ∧
      Laid t [] [] ∧ t.itemOffset = 0 ∧ t.itemHidden = 0 ∧ t.noSnappy = noSnappy ∧
      t.maxFileSize = maxFileSize ∧ t.headId = 0 ∧ t.readonly = false := by
  have hopening := opening_created maxFileSize noSnappy
  have hone : ∀ f, (created maxFileSize noSnappy).files f = true → f = 0 := by
    intro f hf
    by_contra hne
    have hfalse : update (fun _ => false) 0 true f = true := hf
    rw [update_of_ne hne] at hfalse
    cases hfalse
  have hlast : ∀ {t : FreezerTable}, t.index = replicate 6 0 → t.tailId = 0 →
      t.lastIndex = ⟨0, 0⟩ := by
    intro t hindex htail
    rw [FreezerTable.lastIndex, hindex, htail]
    rfl
  obtain ⟨files, hrepair, hfiles⟩ := hopening.repair_located
    (s := unrepaired ⟨none, none, fun _ => none⟩ maxFileSize noSnappy false)
    rfl (repairIndex_first rfl rfl rfl) rfl (by rw [hlast rfl rfl]; rfl) rfl rfl rfl hone
  have hlaid := hopening.laid hfiles le_rfl (fun f => Nat.two_pow_pos 32) hmax
    (fun _ f => Nat.zero_le _) rfl rfl
  obtain ⟨size, hsize⟩ := hlaid.sizeNolock ⟨Nat.two_pow_pos 16, Nat.two_pow_pos 32, by
    show (replicate 6 (0 : UInt8)).length < _
    decide⟩
  refine ⟨_, ?_, hlaid, rfl, rfl, rfl, rfl, rfl, rfl⟩
  rw [newTable, if_neg (by rintro ⟨hread, -⟩; cases hread), hrepair]
  dsimp only
  rw [hsize]

end GoEthereum.Rawdb

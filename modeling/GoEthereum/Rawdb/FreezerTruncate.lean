import GoEthereum.Rawdb.FreezerWrites

/-!
# Truncation of a table

`truncateHead` takes the last items away. `truncateTail` hides the first items, and takes
the files away that hold hidden items only.
-/

namespace GoEthereum.Rawdb

open FreezerTable List Function

variable {t : FreezerTable} {zs : List (Nat × Bytes)}

variable {t' : FreezerTable} {i k m n p : Nat}

theorem Laid.steps_nil (h : Laid t zs []) : Steps t.tailId zs t.headId := by
  have hsteps := h.steps
  rwa [append_nil] at hsteps

theorem Laid.sizes_nil (h : Laid t zs []) (f : Nat) : (contents f zs).length < 2 ^ 32 := by
  have hsizes := h.sizes f
  rwa [append_nil] at hsizes

theorem Laid.room_nil (h : Laid t zs []) (hsnappy : t.noSnappy = true) (f : Nat) :
    (contents f zs).length ≤ t.maxFileSize := by
  have hroom := h.room hsnappy f
  rwa [append_nil] at hroom

theorem contents_take_le (f k : Nat) (zs : List (Nat × Bytes)) :
    (contents f (zs.take k)).length ≤ (contents f zs).length := by
  conv_rhs => rw [← take_append_drop k zs]
  rw [contents_append, length_append]
  exact Nat.le_add_right _ _

theorem contents_drop_le (f k : Nat) (zs : List (Nat × Bytes)) :
    (contents f (zs.drop k)).length ≤ (contents f zs).length := by
  conv_rhs => rw [← take_append_drop k zs]
  rw [contents_append, length_append]
  exact Nat.le_add_left _ _

/-! ## The head -/

/-- The last entry of an index that was cut. -/
theorem Laid.endOf (h : Laid t zs []) (ha : t.Addressable) (hk : k ≤ zs.length)
    (hm : Steps t.tailId (zs.take k) m) (t₁ : FreezerTable) (htail : t₁.tailId = t.tailId)
    (hindex : t₁.index = marshalAll (⟨t.tailId, t.itemOffset⟩ :: ends t.tailId 0 (zs.take k))) :
    t₁.endOf k = .ok ⟨m, (contents m (zs.take k)).length⟩ := by
  rw [FreezerTable.endOf]
  cases k with
  | zero =>
    obtain rfl : t.tailId = m := hm
    rw [if_pos rfl, htail]
    rfl
  | succ k =>
    rw [if_neg (Nat.succ_ne_zero k), hindex]
    refine readEntry_marshalAll (fun e he => h.fits ha e ?_) ?_
    · rw [ends_take] at he
      rcases mem_cons.mp he with rfl | he
      · exact mem_cons_self
      · exact mem_cons_of_mem _ (mem_of_mem_take he)
    · have hlt : k < (zs.take (k + 1)).length := by
        rw [length_take]
        omega
      rw [getElem?_cons_succ, ends_getElem? _ _ hlt, take_take, Nat.min_self,
        hm.endState, ite_self, Nat.zero_add]

/-- The head goes back to an earlier file. -/
theorem backToFile_files {m : Nat} (hfiles : ∀ f, t.files f = true ↔ t.tailId ≤ f ∧ f ≤ t.headId)
    (hm : t.tailId ≤ m ∧ m ≤ t.headId) {d : Bytes} (hdata : t.data m = some d) :
    ∃ files data, t.backToFile m = .ok { t with files := files, data := data, headId := m } ∧
      (∀ f, files f = true ↔ t.tailId ≤ f ∧ f ≤ m) ∧ ∀ f, f ≤ m → data f = t.data f := by
  rw [FreezerTable.backToFile]
  by_cases hne : m ≠ t.headId
  · have hdata' : (t.releaseFile m).data m = some d := hdata
    rw [if_pos hne, openFile_exists hdata' Opener.noConfusion]
    refine ⟨_, _, rfl, ?_, ?_⟩
    · intro f
      show (update (update t.files m false) m true f && !decide (m < f)) =
        true ↔ _
      rw [Bool.and_eq_true, Bool.not_eq_true', decide_eq_false_iff_not]
      by_cases hf : f = m
      · rw [hf, update_self]
        constructor
        · intro _
          exact ⟨hm.1, le_rfl⟩
        · intro _
          exact ⟨rfl, Nat.lt_irrefl _⟩
      · rw [update_of_ne hf, update_of_ne hf, hfiles]
        omega
    · intro f hf
      show (if (true && update (update t.files m false) m true f &&
        decide (m < f)) = true then none else t.data f) = _
      rw [decide_eq_false (Nat.not_lt.mpr hf), Bool.and_false, if_neg Bool.false_ne_true]
  · push Not at hne
    rw [if_neg fun h => h hne]
    refine ⟨t.files, t.data, ?_, ?_, fun f _ => rfl⟩
    · rw [hne]
    · intro f
      rw [hfiles, hne]

/-- The index is cut, and the flush offset is not beyond it. -/
theorem Laid.cutFlushOffset (h : Laid t zs []) (index : Bytes) (newOffset : Nat) :
    ∃ M : FreezerTableMeta, (if t.metadata.flushOffset > newOffset then
        { t with index := index }.setFlushOffset newOffset
        else { t with index := index }) = { t with index := index, metadata := M, metaFile := M } ∧
      M.version = freezerVersion ∧ M.virtualTail = t.itemHidden := by
  by_cases hover : t.metadata.flushOffset > newOffset
  · refine ⟨{ t.metadata with flushOffset := newOffset }, ?_, h.version, h.virtualTail⟩
    rw [if_pos hover, FreezerTable.setFlushOffset, FreezerTable.writeMeta, ← h.version]
  refine ⟨t.metadata, ?_, h.version, h.virtualTail⟩
  rw [if_neg hover]
  have hmeta := h.metaFile
  cases t
  dsimp only at hmeta ⊢
  rw [hmeta]

/-- `truncateHead` keeps the items before the new head. -/
theorem Laid.truncateHead (h : Laid t zs []) (ha : t.Addressable)
    (htrunc : t.truncateHead n = .ok t') :
    t.items ≤ n ∧ t' = t ∨
      t.itemHidden ≤ n ∧ n < t.items ∧ Laid t' (zs.take (n - t.itemOffset)) [] ∧ Kept t t' := by
  rw [FreezerTable.truncateHead] at htrunc
  split at htrunc
  · next hnothing => exact .inl ⟨hnothing, (Except.ok.inj htrunc).symm⟩
  next hnothing =>
  split at htrunc
  · cases htrunc
  next hbelow =>
  obtain ⟨size, hsize⟩ := h.sizeNolock ha
  rw [hsize] at htrunc
  dsimp only at htrunc
  split at htrunc
  · cases htrunc
  next hread =>
  have hwrite : t.readonly = false := by
    rwa [Bool.not_eq_true] at hread
  have hitems := h.items
  have hhidden := h.hidden
  have hk : n - t.itemOffset ≤ zs.length := by omega
  obtain ⟨m, hm, hrest⟩ := steps_append.mp
    ((take_append_drop (n - t.itemOffset) zs).symm ▸ h.steps_nil)
  -- the index is cut, and the flush offset with it
  have hcut : t.index.take ((n - t.itemOffset + 1) * indexEntrySize) =
      marshalAll (⟨t.tailId, t.itemOffset⟩ :: ends t.tailId 0 (zs.take (n - t.itemOffset))) := by
    show t.index.take ((n - t.itemOffset + 1) * 6) = _
    rw [h.index, marshalAll_take, take_succ_cons, ends_take]
  obtain ⟨M, hM, hversion, hvirtual⟩ :=
    h.cutFlushOffset (t.index.take ((n - t.itemOffset + 1) * indexEntrySize))
      ((n - t.itemOffset + 1) * indexEntrySize)
  have hend := h.endOf ha hk hm { t with
      index := t.index.take ((n - t.itemOffset + 1) * indexEntrySize)
      metadata := M
      metaFile := M } rfl hcut
  rw [hM, hend] at htrunc
  dsimp only at htrunc
  have hbounds : t.tailId ≤ m ∧ m ≤ t.headId := ⟨hm.le, hrest.le⟩
  obtain ⟨files, data, hback, hfiles, hdata⟩ := @backToFile_files { t with
      index := t.index.take ((n - t.itemOffset + 1) * indexEntrySize)
      metadata := M
      metaFile := M } m h.files hbounds _ (h.data m hbounds.1 hbounds.2)
  rw [hback] at htrunc
  dsimp only at htrunc
  right
  refine ⟨Nat.not_lt.mp hbelow, Nat.not_le.mp hnothing, ?_⟩
  split at htrunc
  · cases htrunc
  cases htrunc
  refine ⟨?_, ⟨rfl, rfl, rfl, rfl⟩⟩
  -- the items from the new head on are in the files from `m` on
  have hafter : ∀ f, f < m → contents f (zs.drop (n - t.itemOffset)) = [] := by
    intro f hf
    refine contents_eq_nil fun z hz => ?_
    have hle := (hrest.bounds z hz).1
    omega
  have hsplit : ∀ f, contents f zs =
      contents f (zs.take (n - t.itemOffset)) ++ contents f (zs.drop (n - t.itemOffset)) := by
    intro f
    rw [← contents_append, take_append_drop]
  constructor
  case index => exact hcut
  case steps =>
    rw [append_nil]
    exact hm
  case pending =>
    intro p hp
    cases hp
  case data =>
    intro f hf hf'
    show update data m _ f = _
    have hf'' : f ≤ m := hf'
    by_cases hfile : f = m
    · rw [hfile, update_self]
      show some (((data m).getD []).take _) = _
      rw [hdata m le_rfl]
      show some (((t.data m).getD []).take _) = _
      rw [h.data m hbounds.1 hbounds.2]
      show some ((contents m zs).take _) = _
      rw [hsplit m, take_left]
    · rw [update_of_ne hfile, hdata f hf'']
      show t.data f = _
      rw [h.data f hf (hf''.trans hbounds.2), hsplit f,
        hafter f (lt_of_le_of_ne hf'' hfile), append_nil]
  case files => exact hfiles
  case headBytes => rfl
  case items =>
    show n = t.itemOffset + (zs.take (n - t.itemOffset)).length
    rw [length_take]
    omega
  case hidden => exact ⟨hhidden.1, Nat.not_lt.mp hbelow⟩
  case version => exact hversion
  case virtualTail => exact hvirtual
  case metaFile => rfl
  case flushed =>
    intro hread'
    exact absurd hread' hread
  case sizes =>
    intro f
    rw [append_nil]
    exact (contents_take_le _ _ _).trans_lt (h.sizes_nil f)
  case room =>
    intro hsnappy f
    rw [append_nil]
    exact (contents_take_le _ _ _).trans (h.room_nil hsnappy f)
  case maxSize => exact h.maxSize
  case opened => exact h.opened

/-! ## The tail -/

theorem ends_files (f o : Nat) (zs : List (Nat × Bytes)) :
    (ends f o zs).map IndexEntry.filenum = zs.map Prod.fst := by
  induction zs generalizing f o with
  | nil => rfl
  | cons z zs ih =>
    show z.1 :: (ends _ _ zs).map IndexEntry.filenum = z.1 :: zs.map Prod.fst
    rw [ih]

/-- The file of an item, from its entry. -/
theorem Laid.readEntry (h : Laid t zs []) (ha : t.Addressable) {z : Nat × Bytes}
    (hz : zs[i]? = some z) : ∃ e, Rawdb.readEntry t.index (i + 1) = .ok e ∧ e.filenum = z.1 := by
  have hfile : ((ends t.tailId 0 zs).map IndexEntry.filenum)[i]? = some z.1 := by
    rw [ends_files, getElem?_map, hz]
    rfl
  rw [getElem?_map] at hfile
  obtain ⟨e, he, hfilenum⟩ := Option.map_eq_some_iff.mp hfile
  refine ⟨e, ?_, hfilenum⟩
  rw [h.index]
  exact readEntry_marshalAll (h.fits ha) (by rwa [getElem?_cons_succ])

/-- The file of the first item that is kept: the items before it are in this file or the one
before, those after it in this file or later ones. -/
theorem Laid.tailFile (h : Laid t zs []) (ha : t.Addressable) (hk : k ≤ zs.length) :
    ∃ p m, t.tailFile (t.itemOffset + k) = .ok p ∧ Steps t.tailId (zs.take k) m ∧
      (p = m ∨ p = m + 1) ∧ Steps p (zs.drop k) t.headId ∧
      ∀ z, (zs.drop k).head? = some z → z.1 = p := by
  obtain ⟨m, hm, hrest⟩ := steps_append.mp ((take_append_drop k zs).symm ▸ h.steps_nil)
  have hitems := h.items
  rw [FreezerTable.tailFile]
  by_cases hall : k = zs.length
  · rw [if_pos (by omega)]
    rw [drop_of_length_le hall.ge] at hrest ⊢
    refine ⟨t.headId, m, rfl, hm, .inl hrest.symm, rfl, ?_⟩
    intro z hz
    cases hz
  · rw [if_neg (by omega), Nat.add_sub_cancel_left]
    have hlt : k < zs.length := by omega
    obtain ⟨e, he, hfile⟩ := h.readEntry ha (getElem?_eq_getElem hlt)
    rw [he]
    rw [drop_eq_getElem_cons hlt] at hrest ⊢
    refine ⟨zs[k].1, m, ?_, hm, hrest.1.imp id And.left, ⟨.inl rfl, hrest.2⟩, ?_⟩
    · show Except.ok e.filenum = _
      rw [hfile]
    · intro z hz
      cases hz
      rfl

/-- The count of the items in the files before `p`. -/
theorem Laid.countDeleted (h : Laid t zs []) (ha : t.Addressable) (hp : t.tailId ≠ p) {fuel : Nat}
    (hi : i ≤ zs.length) (hfuel : i < fuel) :
    ∃ j, countDeleted t.index p t.itemOffset fuel ((t.itemOffset + i + (2 ^ 64 - 1)) % 2 ^ 64)
        (t.itemOffset + i) = .ok (t.itemOffset + j) ∧ j ≤ i ∧
      (∀ z ∈ (zs.take i).drop j, z.1 = p) ∧
      (j = 0 ∨ ∃ z, zs[j - 1]? = some z ∧ z.1 ≠ p) := by
  have hitems := h.items
  have hbound := h.items_lt ha
  obtain ⟨fuel, rfl⟩ := Nat.exists_eq_succ_of_ne_zero (Nat.ne_zero_of_lt hfuel)
  -- the loop goes back from item to item
  induction i generalizing fuel with
  | zero =>
    refine ⟨0, ?_, le_rfl, ?_, .inl rfl⟩
    · rw [FreezerTable.countDeleted, Nat.add_zero]
      by_cases hzero : t.itemOffset = 0
      · -- the counter wraps, and the entry read is the first one
        have hwrap : (t.itemOffset + (2 ^ 64 - 1)) % 2 ^ 64 = 2 ^ 64 - 1 := by
          rw [hzero]
          rfl
        have hpos : ((2 ^ 64 - 1 - t.itemOffset + 1) % 2 ^ 64 * indexEntrySize) % 2 ^ 64 =
            0 * indexEntrySize := by
          rw [hzero]
          rfl
        have hfirst := @readEntry_marshalAll _ (h.fits ha) 0 _ rfl
        rw [← h.index, Rawdb.readEntry] at hfirst
        rw [hwrap, if_pos (by omega), hpos]
        cases hread : readAt t.index (0 * indexEntrySize) indexEntrySize with
        | error err =>
          rw [hread] at hfirst
          cases hfirst
        | ok buffer =>
          rw [hread] at hfirst
          dsimp only at hfirst ⊢
          rw [Except.ok.inj hfirst, if_pos hp]
      · rw [if_neg (by omega)]
    · intro z hz
      rw [take_zero, drop_nil] at hz
      cases hz
  | succ i ih =>
    have hlt : i < zs.length := hi
    obtain ⟨e, he, hfile⟩ := h.readEntry ha (getElem?_eq_getElem hlt)
    have hcurrent : (t.itemOffset + (i + 1) + (2 ^ 64 - 1)) % 2 ^ 64 = t.itemOffset + i := by
      omega
    have hpos : ((t.itemOffset + i - t.itemOffset + 1) % 2 ^ 64 * indexEntrySize) % 2 ^ 64 =
        (i + 1) * indexEntrySize := by
      rw [indexEntrySize]
      omega
    rw [Rawdb.readEntry] at he
    rw [FreezerTable.countDeleted, hcurrent, if_pos (Nat.le_add_right _ _), hpos]
    cases hread : readAt t.index ((i + 1) * indexEntrySize) indexEntrySize with
    | error err =>
      rw [hread] at he
      cases he
    | ok buffer =>
      rw [hread] at he
      dsimp only at he ⊢
      rw [Except.ok.inj he]
      by_cases hother : e.filenum ≠ p
      · rw [if_pos hother]
        refine ⟨i + 1, rfl, le_rfl, ?_, .inr ⟨zs[i], getElem?_eq_getElem hlt, ?_⟩⟩
        · intro z hz
          rw [drop_of_length_le (by rw [length_take]; omega)] at hz
          cases hz
        · rwa [← hfile]
      · push Not at hother
        rw [if_neg fun hne => hne hother]
        obtain ⟨fuel, rfl⟩ := Nat.exists_eq_succ_of_ne_zero
          (Nat.ne_zero_of_lt (Nat.lt_of_succ_lt_succ hfuel))
        obtain ⟨j, hcount, hj, hsame, hbefore⟩ :=
          ih hlt.le fuel (Nat.lt_of_succ_lt_succ hfuel)
        refine ⟨j, hcount, Nat.le_succ_of_le hj, ?_, hbefore⟩
        intro z hz
        rw [take_add_one, getElem?_eq_getElem hlt, drop_append_of_le_length (by
          rw [length_take]
          omega)] at hz
        rcases mem_append.mp hz with hz | hz
        · exact hsame z hz
        · rw [Option.toList_some, mem_singleton] at hz
          rw [hz, ← hfile, hother]

theorem steps_same {zs : List (Nat × Bytes)} (h : ∀ z ∈ zs, z.1 = p) : Steps p zs p := by
  induction zs with
  | nil => rfl
  | cons z zs ih =>
    obtain rfl : z.1 = p := h z mem_cons_self
    exact ⟨.inl rfl, ih fun z' hz' => h z' (mem_cons_of_mem z hz')⟩

theorem Steps.last {f g : Nat} {zs : List (Nat × Bytes)} (h : Steps f (zs.take (i + 1)) g)
    {z : Nat × Bytes} (hz : zs[i]? = some z) : g = z.1 := by
  rw [take_add_one, hz] at h
  obtain ⟨m, -, -, hlast⟩ := steps_append.mp h
  exact hlast.symm

/-- The items are cut before the first one of file `p`: the rest is a layout of its own. -/
theorem Laid.cutBefore (h : Laid t zs []) {j : Nat} (hp : t.tailId ≠ p) (hjk : j ≤ k)
    (hm : Steps t.tailId (zs.take k) m) (hpm : p = m ∨ p = m + 1)
    (hafter : Steps p (zs.drop k) t.headId) (hfirst : ∀ z, (zs.drop k).head? = some z → z.1 = p)
    (hsame : ∀ z ∈ (zs.take k).drop j, z.1 = p)
    (hbefore : j = 0 ∨ ∃ z, zs[j - 1]? = some z ∧ z.1 ≠ p) :
    Steps p (zs.drop j) t.headId ∧ (ends t.tailId 0 zs).drop j = ends p 0 (zs.drop j) ∧
      ∀ f, p ≤ f → contents f (zs.drop j) = contents f zs := by
  have hdrop : zs.drop j = (zs.take k).drop j ++ zs.drop k := by
    by_cases hk : k ≤ zs.length
    · rw [← drop_append_of_le_length (by rw [length_take]; omega), take_append_drop]
    · rw [take_of_length_le (Nat.le_of_not_le hk), drop_of_length_le
        (Nat.le_of_not_le hk), append_nil]
  have htake : zs.take k = zs.take j ++ (zs.take k).drop j := by
    conv_lhs => rw [← take_append_drop j (zs.take k), take_take, Nat.min_eq_left hjk]
  obtain ⟨m₀, hm₀, hmid⟩ := steps_append.mp (htake ▸ hm)
  -- the items before end in an earlier file
  have hne : p ≠ m₀ := by
    rcases hbefore with rfl | ⟨z, hz, hother⟩
    · obtain rfl : t.tailId = m₀ := hm₀
      exact hp.symm
    rcases Nat.eq_zero_or_pos j with rfl | hpos
    · obtain rfl : t.tailId = m₀ := hm₀
      exact hp.symm
    · obtain ⟨i, rfl⟩ := Nat.exists_eq_succ_of_ne_zero hpos.ne'
      rw [hm₀.last hz]
      exact fun heq => hother heq.symm
  have hlt : m₀ < p := by
    have hle := hmid.le
    omega
  refine ⟨?_, ?_, ?_⟩
  · rw [hdrop]
    exact steps_append.mpr ⟨p, steps_same hsame, hafter⟩
  · rw [ends_drop, hm₀.endState, ite_self, Nat.zero_add]
    refine ends_restart ?_ hne
    intro z hz
    rw [hdrop, head?_append] at hz
    cases hpart : (zs.take k).drop j with
    | nil =>
      rw [hpart] at hz
      exact hfirst z hz
    | cons z' rest =>
      rw [hpart] at hz
      cases hz
      exact hsame _ (hpart ▸ mem_cons_self)
  · intro f hf
    have hnone : contents f (zs.take j) = [] := by
      refine contents_eq_nil fun z hz => ?_
      have hle := (hm₀.bounds z hz).2
      omega
    conv_rhs => rw [← take_append_drop j zs, contents_append, hnone]
    rfl

/-- Of the number of removed items the index keeps four bytes. -/
theorem marshal_offset_mod (f o : Nat) :
    IndexEntry.marshal ⟨f, o % 2 ^ 32⟩ = IndexEntry.marshal ⟨f, o⟩ := by
  rw [IndexEntry.marshal, IndexEntry.marshal]
  exact congrArg _ (beBytes_mod 4 _)

theorem Laid.hide (h : Laid t zs []) (hwrite : t.readonly = false)
    (hn : t.itemOffset ≤ n ∧ n ≤ t.items) : Laid (t.hide n) zs [] := by
  refine { h with
    hidden := ?hidden, virtualTail := ?virtualTail, metaFile := ?metaFile, flushed := ?flushed }
  case hidden => exact hn
  case virtualTail => rfl
  case metaFile => exact writeMeta_metaFile h.version
  case flushed =>
    intro hread
    exact absurd (hwrite.symm.trans hread) Bool.false_ne_true

/-- The tail moves to file `p`, before the item it starts with. -/
theorem Laid.moveTail (h : Laid t zs []) (hwrite : t.readonly = false) {j : Nat}
    (hj : j ≤ zs.length) (hhidden : t.itemOffset + j ≤ t.itemHidden) (hp : t.tailId ≤ p)
    (hsteps : Steps p (zs.drop j) t.headId)
    (hends : (ends t.tailId 0 zs).drop j = ends p 0 (zs.drop j))
    (hcontents : ∀ f, p ≤ f → contents f (zs.drop j) = contents f zs)
    (hmove : t.moveTail p (t.itemOffset + j) = .ok t') :
    Laid t' (zs.drop j) [] ∧ t'.itemOffset = t.itemOffset + j ∧
      t'.itemHidden = t.itemHidden ∧ t'.noSnappy = t.noSnappy ∧
      t'.maxFileSize = t.maxFileSize := by
  rw [FreezerTable.moveTail] at hmove
  dsimp only at hmove
  split at hmove
  · cases hmove
  split at hmove
  · cases hmove
  cases hmove
  refine ⟨?_, rfl, rfl, rfl, rfl⟩
  refine { h with
    index := ?index, steps := ?steps, pending := ?pending, data := ?data, files := ?files,
    headBytes := ?headBytes, items := ?items, hidden := ?hidden, metaFile := ?metaFile,
    flushed := ?flushed, sizes := ?sizes, room := ?room }
  case index =>
    show [] ++ IndexEntry.marshal ⟨p, (t.itemOffset + j) % 2 ^ 32⟩ ++
      t.index.drop (indexEntrySize * (t.itemOffset + j - t.itemOffset + 1)) =
        marshalAll (⟨p, t.itemOffset + j⟩ :: ends p 0 (zs.drop j))
    rw [marshal_offset_mod, Nat.add_sub_cancel_left, Nat.mul_comm]
    show _ ++ t.index.drop ((j + 1) * 6) = _
    rw [h.index, marshalAll_drop, drop_succ_cons, hends, marshalAll_cons]
    rfl
  case steps =>
    rw [append_nil]
    exact hsteps
  case pending =>
    intro q hq
    cases hq
  case data =>
    intro f hf hf'
    show (if (true && t.files f && decide (f < p)) = true then none else t.data f) = _
    have hf'' : p ≤ f := hf
    rw [decide_eq_false (Nat.not_lt.mpr hf''), Bool.and_false, if_neg Bool.false_ne_true,
      hcontents f hf'']
    exact h.data f (hp.trans hf) hf'
  case files =>
    intro f
    show (t.files f && !decide (f < p)) = true ↔ p ≤ f ∧ f ≤ t.headId
    rw [Bool.and_eq_true, Bool.not_eq_true', decide_eq_false_iff_not, h.files]
    omega
  case headBytes =>
    show t.headBytes = _
    rw [h.headBytes]
    exact congrArg length (hcontents t.headId hsteps.le).symm
  case items =>
    show t.items = t.itemOffset + j + (zs.drop j).length
    rw [length_drop, h.items]
    omega
  case hidden => exact ⟨hhidden, h.hidden.2⟩
  case metaFile => exact writeMeta_metaFile h.version
  case flushed =>
    intro hread
    exact absurd (hwrite.symm.trans hread) Bool.false_ne_true
  case sizes =>
    intro f
    rw [append_nil]
    exact (contents_drop_le _ _ _).trans_lt (h.sizes_nil f)
  case room =>
    intro hsnappy f
    rw [append_nil]
    exact (contents_drop_le _ _ _).trans (h.room_nil hsnappy f)

/-- The files that hold hidden items only go, with the items in them. -/
theorem Laid.removeHidden (h : Laid t zs []) (ha : t.Addressable) (hwrite : t.readonly = false)
    (hk : k ≤ zs.length) (hhidden : t.itemHidden = t.itemOffset + k) (hpos : 0 < t.itemHidden)
    (hm : Steps t.tailId (zs.take k) m) (hpm : p = m ∨ p = m + 1)
    (hafter : Steps p (zs.drop k) t.headId) (hfirst : ∀ z, (zs.drop k).head? = some z → z.1 = p)
    (hremove : t.removeHidden (t.itemOffset + k) p = .ok t') :
    t'.itemHidden = t.itemHidden ∧ t'.noSnappy = t.noSnappy ∧ t'.maxFileSize = t.maxFileSize ∧
      ∃ j, j ≤ zs.length ∧ t'.itemOffset = t.itemOffset + j ∧ Laid t' (zs.drop j) [] := by
  have hitems := h.items
  have hbound := h.items_lt ha
  rw [FreezerTable.removeHidden] at hremove
  by_cases hsame : t.tailId = p
  · rw [if_pos hsame] at hremove
    cases hremove
    exact ⟨rfl, rfl, rfl, 0, Nat.zero_le _, rfl, h⟩
  rw [if_neg hsame] at hremove
  split at hremove
  · cases hremove
  next hgt =>
  rw [h.doSync hwrite] at hremove
  dsimp only at hremove
  have hsynced := h.setFlushOffset hwrite t.index.length
  obtain ⟨j, hcount, hjk, hfile, hbefore⟩ :=
    h.countDeleted ha hsame hk (Nat.lt_succ_of_le (Nat.le_add_left k t.itemOffset))
  obtain ⟨hsteps, hends, hcontents⟩ :=
    h.cutBefore hsame hjk hm hpm hafter hfirst hfile hbefore
  have hcurrent : (t.itemOffset + k + (2 ^ 64 - 1)) % 2 ^ 64 = t.itemOffset + k - 1 := by
    omega
  rw [hcurrent] at hcount
  have hmove : (t.setFlushOffset t.index.length).moveTail p (t.itemOffset + j) = .ok t' := by
    have hcount' : FreezerTable.countDeleted (t.setFlushOffset t.index.length).index p
        (t.setFlushOffset t.index.length).itemOffset (t.itemOffset + k + 1)
        (t.itemOffset + k - 1) (t.itemOffset + k) = .ok (t.itemOffset + j) := hcount
    rw [hcount'] at hremove
    exact hremove
  have hle : t.itemOffset + j ≤ t.itemHidden := by
    omega
  obtain ⟨hlaid, hoffset, hhid, hsnappy, hmax⟩ := hsynced.moveTail hwrite (hjk.trans hk) hle
    (Nat.not_lt.mp hgt) hsteps hends hcontents hmove
  exact ⟨hhid, hsnappy, hmax, j, hjk.trans hk, hoffset, hlaid⟩

/-- `truncateTail` hides the items before the new tail; the files it takes away hold hidden
items only. -/
theorem Laid.truncateTail (h : Laid t zs []) (ha : t.Addressable)
    (htrunc : t.truncateTail n = .ok t') :
    n ≤ t.itemHidden ∧ t' = t ∨
      t.itemHidden < n ∧ n ≤ t.items ∧ t'.itemHidden = n ∧ t'.noSnappy = t.noSnappy ∧
      t'.maxFileSize = t.maxFileSize ∧
      ∃ j, j ≤ zs.length ∧ t'.itemOffset = t.itemOffset + j ∧ Laid t' (zs.drop j) [] := by
  rw [FreezerTable.truncateTail] at htrunc
  split at htrunc
  · next hnothing => exact .inl ⟨hnothing, (Except.ok.inj htrunc).symm⟩
  next hnothing =>
  split at htrunc
  · cases htrunc
  next habove =>
  have hitems := h.items
  have hhidden := h.hidden
  obtain ⟨k, rfl⟩ : ∃ k, n = t.itemOffset + k := ⟨n - t.itemOffset, by omega⟩
  have hk : k ≤ zs.length := by omega
  obtain ⟨p, m, htail, hm, hpm, hafter, hfirst⟩ := h.tailFile ha hk
  obtain ⟨size, hsize⟩ := h.sizeNolock ha
  rw [htail] at htrunc
  dsimp only at htrunc
  rw [hsize] at htrunc
  dsimp only at htrunc
  split at htrunc
  · cases htrunc
  next hread =>
  have hwrite : t.readonly = false := by
    rwa [Bool.not_eq_true] at hread
  have hlaid := h.hide hwrite ⟨Nat.le_add_right t.itemOffset k, Nat.not_lt.mp habove⟩
  have hcut := hlaid.removeHidden ha hwrite hk rfl
    (Nat.zero_lt_of_lt (Nat.not_le.mp hnothing)) hm hpm hafter hfirst htrunc
  exact .inr ⟨Nat.not_le.mp hnothing, Nat.not_lt.mp habove, hcut⟩

end GoEthereum.Rawdb

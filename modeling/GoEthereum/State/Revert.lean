import GoEthereum.State.Act

/-!
# Snapshots

A snapshot is a position in the journal. Whatever operations follow it, undoing the
entries above the position gives back the view of the state at the snapshot. The
invariant that carries this over nested snapshots and reverts is that undoing all entries
since the snapshot, from wherever the run has got to, leads to the same view.
-/

namespace GoEthereum.State

open List

variable {T : Type} {keccak : Bytes → Hash}

variable {addr : Address} {A : Address → Bool} {b : Base} {j : Journal} {e : JournalEntry}
  {entries : List JournalEntry} {marks : Nat} {s s' s₀ : StateDB T} {v : View}

/-! ## Dirty accounts -/

/-- The changes of an account in a list of entries, and the marks of `touchChange`. -/
def dirtyCount (entries : List JournalEntry) (marks : Nat) (addr : Address) : Nat :=
  entries.countP (fun e => e.dirtied = some addr) + if addr = ripemd then marks else 0

/-- The counters of the journal are those of its entries. -/
def Tally (dirties : Map Address Int) (entries : List JournalEntry) (marks : Nat) : Prop :=
  ∀ addr, dirties.lookup addr =
    if dirtyCount entries marks addr = 0 then none else some (dirtyCount entries marks addr : Int)

theorem Tally.getD {dirties : Map Address Int} (h : Tally dirties entries marks) (addr : Address) :
    (dirties.lookup addr).getD 0 = dirtyCount entries marks addr := by
  rw [h addr]
  split
  · rename_i hzero
    rw [hzero]
    rfl
  · rfl

theorem tally_new : Tally newJournal.dirties newJournal.entries 0 := by
  intro addr
  rw [if_pos]
  · rfl
  · show (0 : Nat) + (if addr = ripemd then 0 else 0) = 0
    rw [ite_self]

/-- One more for an address is one more in its counter. -/
theorem Tally.dirty {entries' : List JournalEntry} {marks' : Nat}
    (h : Tally j.dirties entries marks)
    (hcount : ∀ a, dirtyCount entries' marks' a = dirtyCount entries marks a + if a = addr then 1 else 0) :
    Tally (j.dirty addr).dirties entries' marks' := by
  intro a
  rw [Journal.dirty, Map.lookup_insert_ite, hcount a]
  split
  · rename_i ha
    rw [if_neg (Nat.succ_ne_zero _), h.getD, ha]
    rfl
  · exact h a

theorem Tally.append (h : Tally j.dirties j.entries marks) (e : JournalEntry) :
    Tally (j.append e).dirties (j.append e).entries marks := by
  rw [Journal.append]
  cases hd : e.dirtied with
  | none =>
    intro a
    have hcount : dirtyCount (j.entries ++ [e]) marks a = dirtyCount j.entries marks a := by
      simp only [dirtyCount, countP_append, countP_singleton, hd]
      rfl
    simp only
    rw [hcount]
    exact h a
  | some addr =>
    refine Tally.dirty (j := { j with entries := j.entries ++ [e] }) h fun a => ?_
    show dirtyCount (j.entries ++ [e]) marks a = _
    simp only [dirtyCount, countP_append, countP_singleton, hd, Option.some.injEq,
      decide_eq_true_eq, eq_comm (a := addr)]
    omega

theorem Tally.record (h : Tally j.dirties j.entries marks) (e : JournalEntry) :
    ∃ marks', marks ≤ marks' ∧ Tally (j.record e).dirties (j.record e).entries marks' := by
  rw [Journal.record]
  split
  · refine ⟨marks + 1, Nat.le_succ marks, Tally.dirty (h.append e) fun a => ?_⟩
    show dirtyCount (j.append e).entries (marks + 1) a = _
    simp only [dirtyCount]
    split
    · omega
    · omega
  · exact ⟨marks, le_rfl, h.append e⟩

theorem Tally.undirty (h : Tally j.dirties (entries ++ [e]) marks) :
    Tally (j.undirty e).dirties entries marks := by
  rw [Journal.undirty]
  cases hd : e.dirtied with
  | none =>
    intro a
    have hcount : dirtyCount (entries ++ [e]) marks a = dirtyCount entries marks a := by
      simp only [dirtyCount, countP_append, countP_singleton, hd]
      rfl
    rw [← hcount]
    exact h a
  | some addr =>
    intro a
    have hcount : dirtyCount (entries ++ [e]) marks a =
        dirtyCount entries marks a + if a = addr then 1 else 0 := by
      simp only [dirtyCount, countP_append, countP_singleton, hd, Option.some.injEq,
        decide_eq_true_eq, eq_comm (a := addr)]
      omega
    have hn : (j.dirties.lookup addr).getD 0 - 1 = dirtyCount entries marks addr := by
      have hself : dirtyCount (entries ++ [e]) marks addr = dirtyCount entries marks addr + 1 := by
        simp only [dirtyCount, countP_append, countP_singleton, hd, decide_true, if_true]
        omega
      rw [h.getD, hself]
      push_cast
      omega
    simp only [hn]
    by_cases ha : a = addr
    · subst ha
      split
      · rename_i hzero
        rw [Finmap.lookup_erase, if_pos (by exact_mod_cast hzero)]
      · rename_i hne
        rw [Finmap.lookup_insert, if_neg (by exact_mod_cast hne)]
    · have hother := h a
      rw [hcount, if_neg ha, Nat.add_zero] at hother
      split
      · rw [Finmap.lookup_erase_ne ha, hother]
      · rw [Finmap.lookup_insert_of_ne _ ha, hother]

/-! ## The access list along the journal -/

/-- The effect of undoing an entry on the access list. -/
def undoAccess (al : AccessList) : JournalEntry → Except Panic AccessList
  | .accessListAddAccountChange address => .ok (al.DeleteAddress address)
  | .accessListAddSlotChange address slot => al.DeleteSlot address slot
  | _ => .ok al

/-- The access list is valid, and stays so as the entries are undone, the newest first. -/
def Traced : List JournalEntry → AccessList → Prop
  | [], al => al.Valid
  | e :: es, al => al.Valid ∧ ∀ al', undoAccess al e = .ok al' → Traced es al'

theorem Traced.valid {es : List JournalEntry} {al : AccessList} (h : Traced es al) : al.Valid := by
  cases es with
  | nil => exact h
  | cons e es => exact h.1

theorem modify_accessList {v' : View} {f : AccountView → AccountView} (h : v.modify addr f = .ok v')
    : v'.accessList = v.accessList := by
  rw [View.modify] at h
  split at h
  · cases h
  · cases h
    rfl

theorem undo_accessList {v' : View} (h : v.undo keccak b e = .ok v') :
    undoAccess v.accessList e = .ok v'.accessList := by
  cases e with
  | createObjectChange account =>
    cases h
    rfl
  | createContractChange account => exact congrArg Except.ok (modify_accessList h).symm
  | selfDestructChange account =>
    cases h
    rfl
  | balanceChange account prev => exact congrArg Except.ok (modify_accessList h).symm
  | nonceChange account prev => exact congrArg Except.ok (modify_accessList h).symm
  | storageChange account key prevvalue origvalue =>
    exact congrArg Except.ok (modify_accessList h).symm
  | codeChange account prevCode => exact congrArg Except.ok (modify_accessList h).symm
  | refundChange prev =>
    cases h
    rfl
  | addLogChange txhash =>
    rw [View.undo] at h
    split at h
    · cases h
    · cases h
      rfl
  | touchChange account =>
    cases h
    rfl
  | accessListAddAccountChange address =>
    cases h
    rfl
  | accessListAddSlotChange address slot =>
    rw [View.undo] at h
    rw [undoAccess]
    split at h
    · cases h
    · rename_i al hal
      cases h
      exact hal
  | transientStorageChange account key prevalue =>
    cases h
    rfl

theorem apply_valid (h : v.accessList.Valid) (act : Act) :
    (act.apply keccak b v).accessList.Valid := by
  cases act with
  | accessAddress addr => exact h.addAddress addr
  | accessSlot addr slot =>
    obtain ⟨_, _, al, heq, hvalid, -, -⟩ := h.addSlot addr slot
    simp only [Act.apply, heq]
    exact hvalid
  | _ => exact h

/-- Undoing the entry of an elementary change gives back the access list. -/
theorem Acted.undoAccess {act : Act} (h : Acted keccak s act e s') (hvalid : s.accessList.Valid) :
    State.undoAccess s'.accessList e = .ok s.accessList := by
  have hundo := @undo_apply T keccak (fun _ => false) s act e h.records hvalid
    (by intro _ _ _ hf; cases hf)
  rw [← h.view] at hundo
  obtain ⟨w, hu, hundo⟩ := ok_of_map hundo
  have hal : w.accessList = s.accessList :=
    congrArg View.accessList hundo
  rw [← hal]
  exact undo_accessList hu

/-! ## The invariant of the journal -/

/-- The snapshots are in order and within the journal. -/
structure Revisions (j : Journal) : Prop where
  sorted : j.validRevisions.Pairwise fun r r' => r.id < r'.id ∧ r.journalIndex ≤ r'.journalIndex
  bound : ∀ r ∈ j.validRevisions, r.id < j.nextRevisionId ∧ r.journalIndex ≤ j.entries.length

/-- What holds of a state whatever has been done to it. -/
structure Sound (s : StateDB T) : Prop where
  traced : Traced s.journal.entries.reverse s.accessList
  tallied : ∃ marks, Tally s.journal.dirties s.journal.entries marks
  revisions : Revisions s.journal

theorem Sound.valid (h : Sound s) : s.accessList.Valid := h.traced.valid

/-- What a state's journal has more than that of an earlier one. -/
structure Grown (s : StateDB T) (es : List JournalEntry) (s' : StateDB T) : Prop where
  entries : s'.journal.entries = s.journal.entries ++ es
  validRevisions : s'.journal.validRevisions = s.journal.validRevisions
  nextRevisionId : s'.journal.nextRevisionId = s.journal.nextRevisionId
  tally : ∀ marks, Tally s.journal.dirties s.journal.entries marks →
    ∃ marks', marks ≤ marks' ∧ Tally s'.journal.dirties s'.journal.entries marks'

theorem record_entries (j : Journal) (e : JournalEntry) : (j.record e).entries = j.entries ++ [e] ∧
      (j.record e).validRevisions = j.validRevisions ∧
      (j.record e).nextRevisionId = j.nextRevisionId := by
  have happend : (j.append e).entries = j.entries ++ [e] ∧
      (j.append e).validRevisions = j.validRevisions ∧
      (j.append e).nextRevisionId = j.nextRevisionId := by
    rw [Journal.append]
    cases e.dirtied with
    | none => exact ⟨rfl, rfl, rfl⟩
    | some addr => exact ⟨rfl, rfl, rfl⟩
  rw [Journal.record]
  split
  · exact happend
  · exact happend

theorem Grown.sound {es : List JournalEntry} (h : Grown s es s') (hs : Sound s)
    (htraced : Traced s'.journal.entries.reverse s'.accessList) : Sound s' where
  traced := htraced
  tallied := by
    obtain ⟨marks, ht⟩ := hs.tallied
    obtain ⟨marks', -, ht'⟩ := h.tally marks ht
    exact ⟨marks', ht'⟩
  revisions :=
    { sorted := by
        rw [h.validRevisions]
        exact hs.revisions.sorted
      bound := by
        intro r hr
        rw [h.validRevisions] at hr
        obtain ⟨hid, hidx⟩ := hs.revisions.bound r hr
        rw [h.nextRevisionId, h.entries, length_append]
        exact ⟨hid, hidx.trans (Nat.le_add_right _ _)⟩ }

/-- **A sequence of elementary changes can be undone**, up to the codes that were not in
memory. -/
theorem Performs.undone {acts : List Act} (h : Performs keccak s acts s') (hs : Sound s)
    (hcode : ∀ addr code, .code addr code ∈ acts → A addr = true → s.LoadedAt keccak addr) :
    Sound s' ∧ ∃ es, Grown s es s' ∧
      (View.undoAll keccak s.base es.reverse (s'.view keccak)).map (View.mask A) =
        .ok ((s.view keccak).mask A) := by
  induction h with
  | refl =>
    refine ⟨hs, [], ⟨(append_nil _).symm, rfl, rfl, fun m hm => ⟨m, le_rfl, hm⟩⟩, rfl⟩
  | @load acts s₁ s₂ h hl ih =>
    obtain ⟨hs₁, es, hgrown, hundone⟩ := ih hcode
    have hal : s₂.accessList = s₁.accessList := congrArg View.accessList hl.view
    refine ⟨⟨?_, ?_, ?_⟩, es, ⟨?_, ?_, ?_, ?_⟩, ?_⟩
    · rw [hl.journal, hal]
      exact hs₁.traced
    · rw [hl.journal]
      exact hs₁.tallied
    · rw [hl.journal]
      exact hs₁.revisions
    · rw [hl.journal]
      exact hgrown.entries
    · rw [hl.journal]
      exact hgrown.validRevisions
    · rw [hl.journal]
      exact hgrown.nextRevisionId
    · rw [hl.journal]
      exact hgrown.tally
    · rw [hl.view]
      exact hundone
  | @act acts act e s₁ s₂ h ha ih =>
    obtain ⟨hs₁, es, hgrown, hundone⟩ := ih fun addr code hmem =>
      hcode addr code (mem_append_left _ hmem)
    obtain ⟨hentries, hrevisions, hnext⟩ := record_entries s₁.journal e
    rw [← ha.journal] at hentries hrevisions hnext
    have hgrown₂ : Grown s₁ [e] s₂ := by
      refine ⟨hentries, hrevisions, hnext, fun marks hm => ?_⟩
      rw [ha.journal]
      exact hm.record e
    have hvalid₂ : s₂.accessList.Valid := by
      have hal : s₂.accessList = (act.apply keccak s₁.base (s₁.view keccak)).accessList :=
        congrArg View.accessList ha.view
      rw [hal]
      exact apply_valid hs₁.valid act
    refine ⟨hgrown₂.sound hs₁ ?_, es ++ [e], ⟨?_, ?_, ?_, ?_⟩, ?_⟩
    · rw [hentries, reverse_concat]
      refine ⟨hvalid₂, fun al hal => ?_⟩
      rw [ha.undoAccess hs₁.valid] at hal
      cases hal
      exact hs₁.traced
    · rw [hentries, hgrown.entries, append_assoc]
    · exact hrevisions.trans hgrown.validRevisions
    · exact hnext.trans hgrown.nextRevisionId
    · intro marks hm
      obtain ⟨marks₁, hle₁, hm₁⟩ := hgrown.tally marks hm
      obtain ⟨marks₂, hle₂, hm₂⟩ := hgrown₂.tally marks₁ hm₁
      exact ⟨marks₂, hle₁.trans hle₂, hm₂⟩
    · -- the last entry first, then the others as before
      have hlast := @undo_apply T keccak A s₁ act e ha.records hs₁.valid (by
        intro addr code hact hA
        refine h.loaded (hcode addr code ?_ hA)
        rw [hact]
        exact mem_append_right _ (mem_singleton_self _))
      rw [← ha.view, h.frame.base] at hlast
      rw [reverse_concat, View.undoAll]
      obtain ⟨w, hu, hlast⟩ := ok_of_map hlast
      rw [← hundone, hu]
      exact View.undoAll_congr es.reverse hlast

/-! ## Reverting -/

/-- What the loop of `revert` does to the state. -/
structure Reverted (s : StateDB T) (es : List JournalEntry) (s' : StateDB T) : Prop where
  frame : Frame s s'
  entries : s'.journal.entries = s.journal.entries
  validRevisions : s'.journal.validRevisions = s.journal.validRevisions
  nextRevisionId : s'.journal.nextRevisionId = s.journal.nextRevisionId
  tally : ∀ below marks, Tally s.journal.dirties (below ++ es.reverse) marks →
    Tally s'.journal.dirties below marks
  traced : ∀ below, Traced (es ++ below) s.accessList → Traced below s'.accessList

theorem undirty_entries (j : Journal) (e : JournalEntry) :
    (j.undirty e).entries = j.entries ∧ (j.undirty e).validRevisions = j.validRevisions ∧
      (j.undirty e).nextRevisionId = j.nextRevisionId := by
  rw [Journal.undirty]
  cases e.dirtied with
  | none => exact ⟨rfl, rfl, rfl⟩
  | some addr => exact ⟨rfl, rfl, rfl⟩

/-- **The loop of `revert` undoes the entries in the view.** -/
theorem revertEntries_spec (es : List JournalEntry) : ∀ s : StateDB T,
    (StateDB.revertEntries keccak es s).map (StateDB.view keccak) =
        View.undoAll keccak s.base es (s.view keccak) ∧
      ∀ s', StateDB.revertEntries keccak es s = .ok s' → Reverted s es s' := by
  induction es with
  | nil =>
    intro s
    refine ⟨rfl, fun s' h => ?_⟩
    cases h
    refine ⟨.refl s, rfl, rfl, rfl, fun below marks h => ?_, fun below h => h⟩
    rwa [reverse_nil, append_nil] at h
  | cons e es ih =>
    intro s
    have hview := @revert_view T keccak s e
    rw [StateDB.revertEntries, View.undoAll]
    cases hrevert : e.revert keccak s with
    | error p =>
      rw [hrevert] at hview
      rw [← hview]
      exact ⟨rfl, fun s' h => by cases h⟩
    | ok s₁ =>
      rw [hrevert] at hview
      obtain ⟨hframe, hjournal, -⟩ := revert_kept hrevert
      obtain ⟨hrest, hreverted⟩ := ih { s₁ with journal := s₁.journal.undirty e }
      have hbase : StateDB.base { s₁ with journal := s₁.journal.undirty e } = s.base :=
        hframe.base
      rw [← hview]
      refine ⟨?_, fun s' h => ?_⟩
      · rw [hbase] at hrest
        exact hrest
      · obtain ⟨hframe', hentries, hrevisions, hnext, htally, htraced⟩ := hreverted s' h
        obtain ⟨hundirty, hundirty', hundirty''⟩ := undirty_entries s₁.journal e
        refine ⟨hframe.trans ⟨hframe'.trie, hframe'.reader, hframe'.originalRoot,
          hframe'.destruct, hframe'.mutations, hframe'.thash, hframe'.txIndex⟩,
          ?_, ?_, ?_, fun below marks ht => ?_, fun below ht => ?_⟩
        · rw [hentries, hundirty, hjournal]
        · rw [hrevisions, hundirty', hjournal]
        · rw [hnext, hundirty'', hjournal]
        · refine htally below marks ?_
          rw [reverse_cons, ← append_assoc, ← hjournal] at ht
          exact ht.undirty
        · refine htraced below (ht.2 s₁.accessList ?_)
          exact undo_accessList hview.symm

/-- What `RevertToSnapshot` does to a state. -/
structure RevertedTo (s : StateDB T) (before : List Revision) (r : Revision) (s' : StateDB T) :
    Prop where
  frame : Frame s s'
  sound : Sound s'
  entries : s'.journal.entries = s.journal.entries.take r.journalIndex
  validRevisions : s'.journal.validRevisions = before
  nextRevisionId : s'.journal.nextRevisionId = s.journal.nextRevisionId
  tally : ∀ marks, Tally s.journal.dirties s.journal.entries marks →
    Tally s'.journal.dirties s'.journal.entries marks

/-- The revision a search for its id finds. -/
theorem search_revision {before after : List Revision} {r : Revision}
    (hsorted : (before ++ r :: after).Pairwise
      fun r r' => r.id < r'.id ∧ r.journalIndex ≤ r'.journalIndex) :
    Search.search (before ++ r :: after).length (fun i =>
      decide (∃ r', (before ++ r :: after)[i]? = some r' ∧ r.id ≤ r'.id)) = before.length := by
  have hget : (before ++ r :: after)[before.length]? = some r := by
    rw [getElem?_append_right le_rfl, Nat.sub_self]
    rfl
  refine Search.search_eq ?_ ?_ ?_ ?_
  · intro i j hij hj hi
    obtain ⟨r₁, hr₁, hle⟩ := of_decide_eq_true hi
    obtain ⟨hi', rfl⟩ := List.getElem?_eq_some_iff.mp hr₁
    refine decide_eq_true ⟨(before ++ r :: after)[j], getElem?_eq_getElem hj, ?_⟩
    rcases Nat.lt_or_eq_of_le hij with hlt | rfl
    · exact hle.trans (pairwise_iff_getElem.mp hsorted i j hi' hj hlt).1.le
    · exact hle
  · rw [length_append, length_cons]
    omega
  · exact decide_eq_true ⟨r, hget, le_rfl⟩
  · intro i hi
    refine decide_eq_false ?_
    rintro ⟨r', hr', hle⟩
    rw [getElem?_append_left hi] at hr'
    have hmem : r' ∈ before := mem_of_getElem? hr'
    have hlt := (pairwise_append.mp hsorted).2.2 r' hmem r mem_cons_self
    omega

theorem Sound.revertToSnapshot {s : StateDB T} (hs : Sound s) {before after : List Revision}
    {r : Revision} (hsplit : s.journal.validRevisions = before ++ r :: after) :
    (s.RevertToSnapshot keccak r.id).map (StateDB.view keccak) =
        View.undoAll keccak s.base (s.journal.entries.drop r.journalIndex).reverse (s.view keccak) ∧
      ∀ s', s.RevertToSnapshot keccak r.id = .ok s' → RevertedTo s before r s' := by
  have hsorted := hs.revisions.sorted
  have hget : (before ++ r :: after)[before.length]? = some r := by
    rw [getElem?_append_right le_rfl, Nat.sub_self]
    rfl
  rw [hsplit] at hsorted
  obtain ⟨hview, hreverted⟩ :=
    @revertEntries_spec T keccak (s.journal.entries.drop r.journalIndex).reverse s
  rw [StateDB.RevertToSnapshot]
  simp only [hsplit, search_revision hsorted, hget, ne_eq, not_true_eq_false, if_false,
    StateDB.revert]
  cases hrun : StateDB.revertEntries keccak (s.journal.entries.drop r.journalIndex).reverse s with
  | error p =>
    rw [hrun] at hview
    exact ⟨hview, fun s' h => by cases h⟩
  | ok s₁ =>
    rw [hrun] at hview
    obtain ⟨hframe, hentries, hrevisions, hnext, htally, htraced⟩ := hreverted s₁ hrun
    refine ⟨hview, fun s' h => ?_⟩
    cases h
    have hkeep : s₁.journal.entries.take r.journalIndex =
        s.journal.entries.take r.journalIndex := by rw [hentries]
    have htake : s₁.journal.validRevisions.take before.length = before := by
      rw [hrevisions, hsplit, take_left]
    have htally' : ∀ marks, Tally s.journal.dirties s.journal.entries marks →
        Tally s₁.journal.dirties (s.journal.entries.take r.journalIndex) marks := by
      intro marks hm
      refine htally _ marks ?_
      rw [reverse_reverse, take_append_drop]
      exact hm
    have hframe' : Frame s { s₁ with
        journal := { s₁.journal with
          entries := s₁.journal.entries.take r.journalIndex
          validRevisions := s₁.journal.validRevisions.take before.length } } :=
      ⟨hframe.trie, hframe.reader, hframe.originalRoot, hframe.destruct, hframe.mutations,
        hframe.thash, hframe.txIndex⟩
    refine ⟨hframe', ⟨?_, ?_, ?_, ?_⟩, hkeep, htake, hnext, ?_⟩
    · show Traced (s₁.journal.entries.take r.journalIndex).reverse s₁.accessList
      rw [hkeep]
      refine htraced _ ?_
      rw [← reverse_append, take_append_drop]
      exact hs.traced
    · obtain ⟨marks, hm⟩ := hs.tallied
      refine ⟨marks, ?_⟩
      show Tally s₁.journal.dirties (s₁.journal.entries.take r.journalIndex) marks
      rw [hkeep]
      exact htally' marks hm
    · show (s₁.journal.validRevisions.take before.length).Pairwise _
      rw [htake]
      exact (pairwise_append.mp hsorted).1
    · intro r' hr'
      have hmem : r' ∈ before := by
        have hr'' : r' ∈ s₁.journal.validRevisions.take before.length := hr'
        rwa [htake] at hr''
      have hle := (pairwise_append.mp hsorted).2.2 r' hmem r mem_cons_self
      have hbound := hs.revisions.bound r' (by
        rw [hsplit]
        exact mem_append_left _ hmem)
      have hbound' := hs.revisions.bound r (by
        rw [hsplit]
        exact mem_append_right _ mem_cons_self)
      refine ⟨?_, ?_⟩
      · show r'.id < s₁.journal.nextRevisionId
        rw [hnext]
        exact hbound.1
      · show r'.journalIndex ≤ (s₁.journal.entries.take r.journalIndex).length
        rw [hkeep, length_take]
        omega
    · intro marks hm
      show Tally s₁.journal.dirties (s₁.journal.entries.take r.journalIndex) marks
      rw [hkeep]
      exact htally' marks hm

/-- A revert that succeeds is to a snapshot that was valid. -/
theorem revertToSnapshot_split {id : Nat} (h : s.RevertToSnapshot keccak id = .ok s') :
    ∃ before r after, s.journal.validRevisions = before ++ r :: after ∧ r.id = id := by
  rw [StateDB.RevertToSnapshot] at h
  simp only at h
  split at h
  · cases h
  next r hr =>
  split at h
  · cases h
  · rename_i hid
    obtain ⟨before, after, hsplit⟩ := append_of_mem (mem_of_getElem? hr)
    exact ⟨before, r, after, hsplit, not_not.mp hid⟩

/-! ## Runs -/

/-- The calls of a transaction. -/
inductive Cmd where
  | op (op : Op)
  | snapshot
  | revertToSnapshot (id : Nat)

/-- The state after a call. -/
def Cmd.call (keccak : Bytes → Hash) (s : StateDB T) : Cmd → Except Panic (StateDB T)
  | .op o => o.call keccak s
  | .snapshot => .ok s.Snapshot.2
  | .revertToSnapshot id => s.RevertToSnapshot keccak id

/-- The state after a sequence of calls. -/
def runCmds (keccak : Bytes → Hash) : StateDB T → List Cmd → Except Panic (StateDB T)
  | s, [] => .ok s
  | s, c :: cs =>
    match c.call keccak s with
    | .error p => .error p
    | .ok s => runCmds keccak s cs

/-- A call that keeps to the contracts and does not go back beyond a snapshot. -/
def Cmd.Allowed (keccak : Bytes → Hash) (revid : Nat) (s : StateDB T) : Cmd → Prop
  | .op o => o.Allowed (s.view keccak)
  | .snapshot => True
  | .revertToSnapshot id => revid < id ∧ ∃ r ∈ s.journal.validRevisions, r.id = id

/-- A sequence of such calls. -/
def AllowedRun (keccak : Bytes → Hash) (revid : Nat) : StateDB T → List Cmd → Prop
  | _, [] => True
  | s, c :: cs =>
    c.Allowed keccak revid s ∧ ∀ s', c.call keccak s = .ok s' → AllowedRun keccak revid s' cs

theorem snapshot_sound (hs : Sound s) : Sound s.Snapshot.2 where
  traced := hs.traced
  tallied := hs.tallied
  revisions :=
    { sorted := by
        refine pairwise_append.mpr ⟨hs.revisions.sorted, pairwise_singleton _ _, ?_⟩
        intro r hr r' hr'
        rw [mem_singleton] at hr'
        subst hr'
        exact hs.revisions.bound r hr
      bound := by
        intro r hr
        rcases mem_append.mp hr with hr | hr
        · obtain ⟨hid, hidx⟩ := hs.revisions.bound r hr
          exact ⟨hid.trans (Nat.lt_succ_self _), hidx⟩
        · rw [mem_singleton] at hr
          subst hr
          exact ⟨Nat.lt_succ_self _, le_rfl⟩ }

/-- The view that undoing all entries since an earlier state leads to. -/
def undoneTo (keccak : Bytes → Hash) (s₀ s : StateDB T) : Except Panic View :=
  View.undoAll keccak s₀.base (s.journal.entries.drop s₀.journal.entries.length).reverse
    (s.view keccak)

/-- What a run since a snapshot of `s₀` keeps. -/
structure Since (s₀ s : StateDB T) : Prop where
  frame : Frame s₀ s
  sound : Sound s
  entries : ∃ es, s.journal.entries = s₀.journal.entries ++ es
  revisions : ∃ newer, s.journal.validRevisions = s₀.journal.validRevisions ++
    ⟨s₀.journal.nextRevisionId, s₀.journal.entries.length⟩ :: newer
  tally : ∀ marks, Tally s₀.journal.dirties s₀.journal.entries marks →
    ∃ marks', marks ≤ marks' ∧ Tally s.journal.dirties s.journal.entries marks'

theorem since_snapshot (hs : Sound s₀) : Since s₀ s₀.Snapshot.2 where
  frame := ⟨rfl, rfl, rfl, rfl, rfl, rfl, rfl⟩
  sound := snapshot_sound hs
  entries := ⟨[], (append_nil _).symm⟩
  revisions := ⟨[], rfl⟩
  tally marks hm := ⟨marks, le_rfl, hm⟩

theorem undoneTo_snapshot (s₀ : StateDB T) :
    undoneTo keccak s₀ s₀.Snapshot.2 = .ok (s₀.view keccak) := by
  have hdrop : s₀.Snapshot.2.journal.entries.drop s₀.journal.entries.length = [] :=
    drop_length
  rw [undoneTo, hdrop]
  rfl

/-- The accounts whose code a call sets. -/
def Cmd.setsCode (addr : Address) : Cmd → Prop
  | .op (.setCode a _) => a = addr
  | _ => False

theorem code_mem_acts {thash : Hash} {txIndex : Nat} {op : Op} {code : Bytes}
    (h : Act.code addr code ∈ op.acts keccak b thash txIndex v) : op = .setCode addr code := by
  have hmay := Op.mem_acts _ h
  cases op with
  | setCode a c =>
    obtain ⟨rfl, rfl⟩ := of_decide_eq_true hmay
    rfl
  | _ => cases hmay

/-- The snapshots with a greater id are newer, and so are their positions. -/
theorem Since.newer (h : Since s₀ s) {r : Revision} (hr : r ∈ s.journal.validRevisions)
    (hlt : s₀.journal.nextRevisionId < r.id) :
    ∃ newer₁ newer₂, s.journal.validRevisions = (s₀.journal.validRevisions ++
        ⟨s₀.journal.nextRevisionId, s₀.journal.entries.length⟩ :: newer₁) ++ r :: newer₂ ∧
      s₀.journal.entries.length ≤ r.journalIndex := by
  obtain ⟨newer, hnewer⟩ := h.revisions
  have hsorted := h.sound.revisions.sorted
  have hmem : r ∈ newer := by
    rw [hnewer, mem_append, mem_cons] at hr
    rcases hr with hr | rfl | hr
    · rw [hnewer] at hsorted
      have hless := (pairwise_append.mp hsorted).2.2 r hr _ mem_cons_self
      exact absurd hlt (not_lt.mpr hless.1.le)
    · exact absurd hlt (lt_irrefl _)
    · exact hr
  obtain ⟨newer₁, newer₂, rfl⟩ := append_of_mem hmem
  have hsplit : s.journal.validRevisions = (s₀.journal.validRevisions ++
      ⟨s₀.journal.nextRevisionId, s₀.journal.entries.length⟩ :: newer₁) ++ r :: newer₂ := by
    rw [hnewer, append_assoc, cons_append]
  refine ⟨newer₁, newer₂, hsplit, ?_⟩
  rw [hsplit] at hsorted
  exact ((pairwise_append.mp hsorted).2.2 _
    (mem_append_right _ mem_cons_self) r mem_cons_self).2

/-- **One call.** It succeeds, and undoing everything since the snapshot still leads to the
same view, as far as the codes it sets were in memory or do not count. -/
theorem Since.call (h : Since s₀ s) {c : Cmd}
    (hundone : (undoneTo keccak s₀ s).map (View.mask A) = .ok v)
    (hallowed : c.Allowed keccak s₀.journal.nextRevisionId s)
    (hcode : ∀ addr, c.setsCode addr → A addr = true → s.LoadedAt keccak addr) :
    ∃ s', c.call keccak s = .ok s' ∧ Since s₀ s' ∧
      (undoneTo keccak s₀ s').map (View.mask A) = .ok v := by
  obtain ⟨es₀, hentries₀⟩ := h.entries
  have hdrop₀ : s.journal.entries.drop s₀.journal.entries.length = es₀ := by
    rw [hentries₀, drop_left]
  rw [undoneTo, hdrop₀] at hundone
  cases c with
  | op op =>
    obtain ⟨s', hcall, hperforms⟩ := Op.call_performs h.sound.valid hallowed
    obtain ⟨hsound, es, hgrown, hback⟩ := hperforms.undone (A := A) h.sound (by
      intro addr code hmem
      refine hcode addr ?_
      rw [code_mem_acts hmem]
      exact rfl)
    refine ⟨s', hcall, ⟨h.frame.trans hperforms.frame, hsound, ?_, ?_, ?_⟩, ?_⟩
    · exact ⟨es₀ ++ es, by rw [hgrown.entries, hentries₀, append_assoc]⟩
    · rw [hgrown.validRevisions]
      exact h.revisions
    · intro marks hm
      obtain ⟨marks₁, hle₁, hm₁⟩ := h.tally marks hm
      obtain ⟨marks₂, hle₂, hm₂⟩ := hgrown.tally marks₁ hm₁
      exact ⟨marks₂, hle₁.trans hle₂, hm₂⟩
    · rw [undoneTo, hgrown.entries, hentries₀, append_assoc, drop_left,
        reverse_append, View.undoAll_append]
      rw [h.frame.base] at hback
      obtain ⟨w, hu, hback⟩ := ok_of_map hback
      rw [← hundone, hu]
      exact View.undoAll_congr es₀.reverse hback
  | snapshot =>
    obtain ⟨newer, hnewer⟩ := h.revisions
    refine ⟨_, rfl, ⟨h.frame.trans ⟨rfl, rfl, rfl, rfl, rfl, rfl, rfl⟩, snapshot_sound h.sound,
      h.entries, ?_, h.tally⟩, ?_⟩
    · refine ⟨newer ++ [⟨s.journal.nextRevisionId, s.journal.entries.length⟩], ?_⟩
      show s.journal.validRevisions ++ _ = _
      rw [hnewer, append_assoc, cons_append]
    · show (View.undoAll keccak s₀.base (s.journal.entries.drop _).reverse _).map _ = _
      rw [hdrop₀]
      exact hundone
  | revertToSnapshot id =>
    obtain ⟨hlt, r, hr, rfl⟩ := hallowed
    obtain ⟨newer₁, newer₂, hsplit, hindex⟩ := h.newer hr hlt
    obtain ⟨n, hn⟩ := Nat.exists_eq_add_of_le hindex
    obtain ⟨hview, hspec⟩ := @Sound.revertToSnapshot T keccak s h.sound _ _ _ hsplit
    -- all entries since the snapshot are those undone now and those that stay
    have hes : es₀.reverse = (s.journal.entries.drop r.journalIndex).reverse ++
        (es₀.take n).reverse := by
      rw [← reverse_append, hentries₀, hn, drop_length_add_append, take_append_drop]
    rw [hes, View.undoAll_append] at hundone
    rw [h.frame.base] at hview
    cases hu : View.undoAll keccak s₀.base (s.journal.entries.drop r.journalIndex).reverse
        (s.view keccak) with
    | error p =>
      rw [hu] at hundone
      cases hundone
    | ok w =>
    rw [hu] at hview hundone
    obtain ⟨s', hcall, hw⟩ := ok_of_map hview
    obtain ⟨hframe, hsound, hentries, hrevisions, hnext, htally⟩ := hspec s' hcall
    have hkept : s'.journal.entries = s₀.journal.entries ++ es₀.take n := by
      rw [hentries, hentries₀, hn, take_length_add_append]
    refine ⟨s', hcall, ⟨h.frame.trans hframe, hsound, ⟨es₀.take n, hkept⟩,
      ⟨newer₁, hrevisions⟩, ?_⟩, ?_⟩
    · intro marks hm
      obtain ⟨marks₁, hle₁, hm₁⟩ := h.tally marks hm
      exact ⟨marks₁, hle₁, htally marks₁ hm₁⟩
    · rw [undoneTo, hkept, drop_left, hw]
      exact hundone

/-- The calls of a run that satisfy a condition on the state they find. -/
def AllCalls (keccak : Bytes → Hash) (P : Cmd → StateDB T → Prop) : StateDB T → List Cmd → Prop
  | _, [] => True
  | s, c :: cs => P c s ∧ ∀ s', c.call keccak s = .ok s' → AllCalls keccak P s' cs

/-- **A run.** It succeeds, and undoing everything since the snapshot leads to the same
view. -/
theorem Since.run (cs : List Cmd) :
    ∀ {s : StateDB T}, Since s₀ s → (undoneTo keccak s₀ s).map (View.mask A) = .ok v →
      AllowedRun keccak s₀.journal.nextRevisionId s cs →
      AllCalls keccak (fun c s => ∀ addr, c.setsCode addr → A addr = true →
        s.LoadedAt keccak addr) s cs →
      ∃ s', runCmds keccak s cs = .ok s' ∧ Since s₀ s' ∧
        (undoneTo keccak s₀ s').map (View.mask A) = .ok v := by
  induction cs with
  | nil =>
    intro s h hundone _ _
    exact ⟨s, rfl, h, hundone⟩
  | cons c cs ih =>
    intro s h hundone hallowed hcode
    obtain ⟨s₁, hcall, h₁, hundone₁⟩ := h.call hundone hallowed.1 hcode.1
    obtain ⟨s', hrun, h', hundone'⟩ := ih h₁ hundone₁ (hallowed.2 s₁ hcall) (hcode.2 s₁ hcall)
    refine ⟨s', ?_, h', hundone'⟩
    rw [runCmds, hcall]
    exact hrun

/-- Reverting to the snapshot the run started with. -/
theorem Since.revert {s₀ s : StateDB T} (h : Since s₀ s) :
    (s.RevertToSnapshot keccak s₀.journal.nextRevisionId).map (StateDB.view keccak) =
        undoneTo keccak s₀ s ∧
      ∀ s', s.RevertToSnapshot keccak s₀.journal.nextRevisionId = .ok s' →
        Frame s₀ s' ∧ Sound s' ∧ s'.journal.entries = s₀.journal.entries ∧
        s'.journal.validRevisions = s₀.journal.validRevisions ∧
        ∀ marks, Tally s₀.journal.dirties s₀.journal.entries marks →
          ∃ marks', marks ≤ marks' ∧ Tally s'.journal.dirties s₀.journal.entries marks' := by
  obtain ⟨newer, hnewer⟩ := h.revisions
  obtain ⟨es, hes⟩ := h.entries
  obtain ⟨hview, hspec⟩ := @Sound.revertToSnapshot T keccak s h.sound _ _ _ hnewer
  rw [h.frame.base] at hview
  refine ⟨hview, fun s' hs' => ?_⟩
  obtain ⟨hframe, hsound, hentries, hrevisions, -, htally⟩ := hspec s' hs'
  have hkept : s'.journal.entries = s₀.journal.entries := by
    rw [hentries, hes]
    exact take_left
  refine ⟨h.frame.trans hframe, hsound, hkept, hrevisions, fun marks hm => ?_⟩
  obtain ⟨marks', hle, hm'⟩ := h.tally marks hm
  refine ⟨marks', hle, ?_⟩
  rw [← hkept]
  exact htally marks' hm'

end GoEthereum.State

import GoEthereum.State.Revert

/-!
# Properties that survive reverts

A run goes back to its snapshots, so a property of the view that its operations keep also
has to hold of the views it can go back to. `Backed` says so of the snapshots that are
valid; operations, snapshots and reverts keep it.
-/

namespace GoEthereum.State

open List

variable {T : Type} {keccak : Bytes → Hash} {P : View → Prop}

/-- The property does not depend on codes. -/
def CodeBlind (P : View → Prop) : Prop :=
  ∀ v w : View, v.mask (fun _ => false) = w.mask (fun _ => false) → P v → P w

/-- Going back to any snapshot from `revid` on succeeds and leads to a view with the
property. -/
def Backed (keccak : Bytes → Hash) (P : View → Prop) (revid : Nat) (s : StateDB T) : Prop :=
  ∀ r ∈ s.journal.validRevisions, revid ≤ r.id →
    ∃ v, View.undoAll keccak s.base (s.journal.entries.drop r.journalIndex).reverse
      (s.view keccak) = .ok v ∧ P v

/-- In a sound state every snapshot is older than the next one. -/
theorem Sound.backed {s : StateDB T} (hs : Sound s) :
    Backed keccak P s.journal.nextRevisionId s := by
  intro r hr hid
  exact absurd (hs.revisions.bound r hr).1 (not_lt.mpr hid)

/-- Operations leave the views of the snapshots alone. -/
theorem Backed.performs {revid : Nat} {s s' : StateDB T} {acts : List Act}
    (h : Backed keccak P revid s) (hP : CodeBlind P) (hs : Sound s)
    (hperforms : Performs keccak s acts s') : Backed keccak P revid s' ∧ Sound s' := by
  obtain ⟨hsound, es, hgrown, hundone⟩ := hperforms.undone (A := fun _ => false) hs (by
    intro _ _ _ hf
    cases hf)
  refine ⟨fun r hr hid => ?_, hsound⟩
  rw [hgrown.validRevisions] at hr
  obtain ⟨v, hv, hPv⟩ := h r hr hid
  obtain ⟨w, hw, hmask⟩ := ok_of_map hundone
  have hrest := @View.undoAll_congr keccak (fun _ => false) s.base
    (s.journal.entries.drop r.journalIndex).reverse _ _ hmask
  rw [hv] at hrest
  obtain ⟨v', hv', hmask'⟩ := ok_of_map hrest
  refine ⟨v', ?_, hP v v' hmask'.symm hPv⟩
  rw [hgrown.entries, drop_append_of_le_length (hs.revisions.bound r hr).2,
    reverse_append, View.undoAll_append, hperforms.frame.base, hw]
  exact hv'

theorem Backed.snapshot {revid : Nat} {s : StateDB T} (h : Backed keccak P revid s)
    (hnow : P (s.view keccak)) : Backed keccak P revid s.Snapshot.2 := by
  intro r hr hid
  rcases mem_append.mp hr with hr | hr
  · exact h r hr hid
  rw [mem_singleton] at hr
  subst hr
  refine ⟨s.view keccak, ?_, hnow⟩
  show View.undoAll keccak s.base (s.journal.entries.drop s.journal.entries.length).reverse
    (s.view keccak) = _
  rw [drop_length]
  rfl

/-- A revert succeeds, and the older snapshots are as before. -/
theorem Backed.revert {revid : Nat} {s : StateDB T} (h : Backed keccak P revid s)
    (hs : Sound s) {r : Revision} (hr : r ∈ s.journal.validRevisions) (hid : revid ≤ r.id) :
    ∃ s', s.RevertToSnapshot keccak r.id = .ok s' ∧ P (s'.view keccak) ∧
      Backed keccak P revid s' ∧ Sound s' ∧ Frame s s' := by
  obtain ⟨v, hv, hPv⟩ := h r hr hid
  obtain ⟨before, after, hsplit⟩ := append_of_mem hr
  obtain ⟨hview, hspec⟩ := @Sound.revertToSnapshot T keccak s hs _ _ _ hsplit
  rw [hv] at hview
  obtain ⟨s', hs', rfl⟩ := ok_of_map hview
  obtain ⟨hframe, hsound, hentries, hrevisions, -, -⟩ := hspec s' hs'
  refine ⟨s', hs', hPv, fun r' hr' hid' => ?_, hsound, hframe⟩
  rw [hrevisions] at hr'
  have hmem : r' ∈ s.journal.validRevisions := by
    rw [hsplit]
    exact mem_append_left _ hr'
  have hle : r'.journalIndex ≤ r.journalIndex := by
    have hsorted := hs.revisions.sorted
    rw [hsplit] at hsorted
    exact ((pairwise_append.mp hsorted).2.2 r' hr' r mem_cons_self).2
  obtain ⟨v', hv', hPv'⟩ := h r' hmem hid'
  refine ⟨v', ?_, hPv'⟩
  -- what is undone from here is what was undone from `s`, less what has been undone
  have hdrop : (s.journal.entries.drop r'.journalIndex).reverse =
      (s.journal.entries.drop r.journalIndex).reverse ++
        ((s.journal.entries.take r.journalIndex).drop r'.journalIndex).reverse := by
    obtain ⟨n, hn⟩ := Nat.exists_eq_add_of_le hle
    rw [← reverse_append, drop_take, hn, Nat.add_sub_cancel_left, ← drop_drop, take_append_drop]
  rw [hdrop, View.undoAll_append, hv] at hv'
  rw [hentries, hframe.base]
  exact hv'

end GoEthereum.State

import GoEthereum.Trie.Codec
import GoEthereum.Trie.Hasher

/-!
# What the tracer records

The tracer notes the paths at which nodes appear and disappear, and the blobs it
has read. Relative to the nodes of the trie that was opened, `inserts` are the paths
that hold a node now and did not then, `deletes` those that did then and do not now.
`Moves` says that a change of the nodes below a path was recorded so.

`Cover` is the other half: a node that was stored when the trie was opened either
has been read, or is still behind a hash node.
-/

namespace GoEthereum.Trie

open Radix (Tree)
open Radix.Tree List Function

variable {n : Node} {k p q : Path} {E E' : Path → Prop} {e e' e0 : Prop} {tr tr' tr'' : Tracer}

/-! ## Inserted and deleted paths -/

/-- The tracer's record of one path, at which there was a node (`e0`) and is one (`e`). -/
def Tracks (e0 e : Prop) (q : Path) (tr : Tracer) : Prop :=
  (q ∈ tr.inserts ↔ e ∧ ¬ e0) ∧ (q ∈ tr.deletes ↔ e0 ∧ ¬ e)

theorem tracks_onInsert (he : ¬ e) (h : Tracks e0 e q tr) (he' : e') :
    Tracks e0 e' q (tr.onInsert q) := by
  unfold Tracks at h ⊢
  unfold Tracer.onInsert
  by_cases hd : q ∈ tr.deletes
  · rw [if_pos hd]
    simp only [Finset.mem_erase]
    tauto
  · rw [if_neg hd]
    simp only [Finset.mem_insert]
    tauto

theorem tracks_onDelete (he : e) (h : Tracks e0 e q tr) (he' : ¬ e') :
    Tracks e0 e' q (tr.onDelete q) := by
  unfold Tracks at h ⊢
  unfold Tracer.onDelete
  by_cases hd : q ∈ tr.inserts
  · rw [if_pos hd]
    simp only [Finset.mem_erase]
    tauto
  · rw [if_neg hd]
    simp only [Finset.mem_insert]
    tauto

theorem mem_onInsert_of_ne {q' : Path} (h : q ≠ q') (tr : Tracer) :
    (q ∈ (tr.onInsert q').inserts ↔ q ∈ tr.inserts) ∧
      (q ∈ (tr.onInsert q').deletes ↔ q ∈ tr.deletes) := by
  unfold Tracer.onInsert
  split <;> simp [h]

theorem mem_onDelete_of_ne {q' : Path} (h : q ≠ q') (tr : Tracer) :
    (q ∈ (tr.onDelete q').inserts ↔ q ∈ tr.inserts) ∧
      (q ∈ (tr.onDelete q').deletes ↔ q ∈ tr.deletes) := by
  unfold Tracer.onDelete
  split <;> simp [h]

@[simp] theorem onRead_accessList_self (tr : Tracer) (q : Path) (b : Bytes) :
    (tr.onRead q b).accessList q = some b := update_self _ _ _

@[simp] theorem onInsert_accessList (tr : Tracer) (q : Path) :
    (tr.onInsert q).accessList = tr.accessList := by
  unfold Tracer.onInsert
  split <;> rfl

@[simp] theorem onDelete_accessList (tr : Tracer) (q : Path) :
    (tr.onDelete q).accessList = tr.accessList := by
  unfold Tracer.onDelete
  split <;> rfl

/-- Below `p` the paths with a node change from `E` to `E'`, the tracer records it, and
records nothing else. -/
structure Moves (p : Path) (E E' : Path → Prop) (tr tr' : Tracer) : Prop where
  frame : ∀ q, ¬ p <+: q → (q ∈ tr'.inserts ↔ q ∈ tr.inserts) ∧ (q ∈ tr'.deletes ↔ q ∈ tr.deletes)
  tracks : ∀ r e0, Tracks e0 (E r) (p ++ r) tr → Tracks e0 (E' r) (p ++ r) tr'

theorem Tracks.congr (h : Tracks e0 e q tr) (he : e' ↔ e) (hi : q ∈ tr'.inserts ↔ q ∈ tr.inserts)
    (hd : q ∈ tr'.deletes ↔ q ∈ tr.deletes) : Tracks e0 e' q tr' := by
  unfold Tracks at h ⊢
  rw [hi, hd, he]
  exact h

theorem Moves.of_iff (h : ∀ r, E' r ↔ E r) (hi : tr'.inserts = tr.inserts)
    (hd : tr'.deletes = tr.deletes) : Moves p E E' tr tr' where
  frame q _ := by rw [hi, hd]; exact ⟨Iff.rfl, Iff.rfl⟩
  tracks r _ ht := ht.congr (h r) (by rw [hi]) (by rw [hd])

theorem Moves.trans {E'' : Path → Prop} (h : Moves p E E' tr tr') (h' : Moves p E' E'' tr' tr'') :
    Moves p E E'' tr tr'' where
  frame q hq := by
    rw [(h'.frame q hq).1, (h'.frame q hq).2]
    exact h.frame q hq
  tracks r e0 ht := h'.tracks r e0 (h.tracks r e0 ht)

theorem moves_onInsert {r₀ : Path} (tr : Tracer) (hE : ¬ E r₀) (h : ∀ r, E' r ↔ E r ∨ r = r₀) :
    Moves p E E' tr (tr.onInsert (p ++ r₀)) where
  frame q hq := by
    refine mem_onInsert_of_ne ?_ tr
    rintro rfl
    exact hq (prefix_append p r₀)
  tracks r e0 ht := by
    by_cases hr : r = r₀
    · subst hr
      exact tracks_onInsert hE ht ((h r).mpr (.inr rfl))
    · have hne : p ++ r ≠ p ++ r₀ := fun heq => hr (append_cancel_left heq)
      refine ht.congr ?_ (mem_onInsert_of_ne hne tr).1 (mem_onInsert_of_ne hne tr).2
      rw [h r]
      exact or_iff_left hr

theorem moves_onDelete {p r₀ : Path} {E E' : Path → Prop} (tr : Tracer) (hE : E r₀)
    (h : ∀ r, E' r ↔ E r ∧ r ≠ r₀) : Moves p E E' tr (tr.onDelete (p ++ r₀)) where
  frame q hq := by
    refine mem_onDelete_of_ne ?_ tr
    rintro rfl
    exact hq (prefix_append p r₀)
  tracks r e0 ht := by
    by_cases hr : r = r₀
    · subst hr
      exact tracks_onDelete hE ht fun he => ((h r).mp he).2 rfl
    · have hne : p ++ r ≠ p ++ r₀ := fun heq => hr (append_cancel_left heq)
      refine ht.congr ?_ (mem_onDelete_of_ne hne tr).1 (mem_onDelete_of_ne hne tr).2
      rw [h r]
      exact and_iff_left hr

/-- A change below a longer path, seen from a shorter one. -/
theorem Moves.lift {F F' : Path → Prop} (h : Moves (p ++ k) E E' tr tr')
    (hE : ∀ r, F (k ++ r) ↔ E r) (hE' : ∀ r, F' (k ++ r) ↔ E' r)
    (hout : ∀ r, ¬ k <+: r → (F' r ↔ F r)) : Moves p F F' tr tr' where
  frame q hq := by
    refine h.frame q fun hpre => hq ?_
    exact (prefix_append p k).trans hpre
  tracks r e0 ht := by
    by_cases hr : k <+: r
    · obtain ⟨r', rfl⟩ := hr
      rw [← append_assoc] at ht ⊢
      rw [propext (hE r')] at ht
      rw [propext (hE' r')]
      exact h.tracks r' e0 ht
    · have hq : ¬ p ++ k <+: p ++ r := by
        rw [prefix_append_right_inj]
        exact hr
      exact ht.congr (hout r hr) (h.frame _ hq).1 (h.frame _ hq).2

theorem Moves.short {p k : Path} (hk : k ≠ []) {c c' : TrieTree} {tr tr' : Tracer}
    (h : Moves (p ++ k) c.HasNode c'.HasNode tr tr') :
    Moves p (Tree.short k c).HasNode (Tree.short k c').HasNode tr tr' := by
  have happ : ∀ (d : TrieTree) (r : Path), (Tree.short k d).HasNode (k ++ r) ↔ d.HasNode r :=
    fun d r => by rw [HasNode, nodeAt_short_append hk, HasNode]
  refine h.lift (happ c) (happ c') fun r hr => ?_
  rw [hasNode_short, hasNode_short]
  refine or_congr Iff.rfl ⟨?_, ?_⟩
  · rintro ⟨r', rfl, -⟩
    exact absurd (prefix_append k r') hr
  · rintro ⟨r', rfl, -⟩
    exact absurd (prefix_append k r') hr

theorem Moves.full {p : Path} {a : Nibble} {ts : Nibble → TrieTree} {c' : TrieTree}
    {tr tr' : Tracer} (h : Moves (p ++ [a]) (ts a).HasNode c'.HasNode tr tr') :
    Moves p (Tree.full ts).HasNode (Tree.full (Function.update ts a c')).HasNode tr tr' := by
  refine h.lift (fun r => Iff.rfl) (fun r => ?_) fun r hr => ?_
  · rw [singleton_append, HasNode, nodeAt, update_self, HasNode]
  · cases r with
    | nil => exact ⟨fun _ => rfl, fun _ => rfl⟩
    | cons b r =>
      have hb : b ≠ a := by
        rintro rfl
        exact hr ⟨r, rfl⟩
      rw [HasNode, HasNode, nodeAt, nodeAt, update_of_ne hb]

/-! ## Blobs read -/

section Reads

variable (keccak : Bytes → Hash) (S : Path → TrieTree → Prop)

/-- Between two states of the tracer only stored nodes below `p` were read. -/
def Reads (p : Path) (tr tr' : Tracer) : Prop :=
  ∀ q, tr'.accessList q = tr.accessList q ∨
    ∃ u, p <+: q ∧ S q u ∧ tr'.accessList q = some (enc keccak u)

/-- Nothing but reads happened. -/
structure Idle (p : Path) (tr tr' : Tracer) : Prop where
  inserts : tr'.inserts = tr.inserts
  deletes : tr'.deletes = tr.deletes
  reads : Reads keccak S p tr tr'

variable {keccak S}

theorem Reads.refl (p : Path) (tr : Tracer) : Reads keccak S p tr tr := fun _ => Or.inl rfl

theorem Reads.of_accessList (h : tr'.accessList = tr.accessList) : Reads keccak S p tr tr' :=
  fun q => Or.inl (congrFun h q)

theorem Reads.trans (h : Reads keccak S p tr tr') (h' : Reads keccak S p tr' tr'') :
    Reads keccak S p tr tr'' := by
  intro q
  rcases h' q with heq | hread
  · rw [heq]
    exact h q
  · exact .inr hread

theorem Reads.mono (h : Reads keccak S (p ++ k) tr tr') : Reads keccak S p tr tr' := by
  intro q
  rcases h q with heq | ⟨u, hpre, hu, hread⟩
  · exact .inl heq
  · exact .inr ⟨u, (prefix_append p k).trans hpre, hu, hread⟩

/-- What has been read stays so. -/
theorem Reads.isSome (h : Reads keccak S p tr tr') (hq : (tr.accessList q).isSome = true) :
    (tr'.accessList q).isSome = true := by
  rcases h q with heq | ⟨u, -, -, hread⟩
  · rw [heq]
    exact hq
  · rw [hread]
    rfl

theorem Idle.refl (p : Path) (tr : Tracer) : Idle keccak S p tr tr :=
  ⟨rfl, rfl, Reads.refl p tr⟩

theorem Idle.trans (h : Idle keccak S p tr tr') (h' : Idle keccak S p tr' tr'') :
    Idle keccak S p tr tr'' :=
  ⟨h'.inserts.trans h.inserts, h'.deletes.trans h.deletes, h.reads.trans h'.reads⟩

theorem Idle.mono (h : Idle keccak S (p ++ k) tr tr') :
    Idle keccak S p tr tr' := ⟨h.inserts, h.deletes, h.reads.mono⟩

theorem Idle.moves (h : Idle keccak S p tr tr') (hE : ∀ r, E' r ↔ E r) : Moves p E E' tr tr' :=
  Moves.of_iff hE h.inserts h.deletes

end Reads

/-! ## Nodes behind a hash -/

/-- A hash node stands at a path or above it. -/
def HashAbove : Node → Path → Prop
  | .hash _, _ => True
  | .short k val _, r => k <+: r ∧ HashAbove val (r.drop k.length)
  | .full _ _, [] => False
  | .full children _, a :: r => HashAbove (children a) r
  | .nil, _ => False
  | .value _, _ => False

@[simp] theorem not_hashAbove_nil (r : Path) : ¬ HashAbove .nil r := by
  cases r <;> exact id

@[simp] theorem not_hashAbove_value (v : Bytes) (r : Path) : ¬ HashAbove (.value v) r := by
  cases r <;> exact id

theorem hashAbove_short (k : Path) (n : Node) (f : NodeFlag) (r : Path) :
    HashAbove (.short k n f) r ↔ ∃ r', r = k ++ r' ∧ HashAbove n r' := by
  rw [HashAbove]
  constructor
  · rintro ⟨⟨r', rfl⟩, h⟩
    rw [drop_left] at h
    exact ⟨r', rfl, h⟩
  · rintro ⟨r', rfl, h⟩
    rw [drop_left]
    exact ⟨prefix_append k r', h⟩

theorem hashAbove_full (ns : Nibble → Node) (f : NodeFlag) (r : Path) :
    HashAbove (.full ns f) r ↔ ∃ a r', r = a :: r' ∧ HashAbove (ns a) r' := by
  cases r with
  | nil => simp [HashAbove]
  | cons a r => simp [HashAbove]

/-- Every stored node below `p` has been read or is behind a hash node. -/
def Cover (S : Path → TrieTree → Prop) (p : Path) (n : Node) (tr : Tracer) : Prop :=
  ∀ r u, S (p ++ r) u → (tr.accessList (p ++ r)).isSome = true ∨ HashAbove n r

section Cover

variable {keccak : Bytes → Hash} {S : Path → TrieTree → Prop}

/-- Hash nodes that stay where they are keep the cover. -/
theorem Cover.of_hashAbove {n' : Node} (h : Cover S p n tr) (htr : tr'.accessList = tr.accessList)
    (hn : ∀ r, HashAbove n r → HashAbove n' r) : Cover S p n' tr' := by
  intro r u hu
  rw [htr]
  exact (h r u hu).imp_right (hn r)

/-- Reading more, and moving hash nodes nowhere, keeps the cover. -/
theorem Cover.mono {n' : Node} (h : Cover S p n tr) (hr : Reads keccak S p tr tr')
    (hn : ∀ r, HashAbove n r → HashAbove n' r) : Cover S p n' tr' := by
  intro r u hu
  rcases h r u hu with hread | habove
  · exact .inl (hr.isSome hread)
  · exact .inr (hn r habove)

theorem Cover.short_child {f : NodeFlag} (h : Cover S p (.short k n f) tr) :
    Cover S (p ++ k) n tr := by
  intro r u hu
  rw [append_assoc] at hu ⊢
  rcases h (k ++ r) u hu with hread | habove
  · exact .inl hread
  · obtain ⟨r', heq, habove⟩ := (hashAbove_short k n f _).mp habove
    rw [append_cancel_left heq]
    exact .inr habove

theorem Cover.full_child {ns : Nibble → Node} {f : NodeFlag} (h : Cover S p (.full ns f) tr)
    (a : Nibble) : Cover S (p ++ [a]) (ns a) tr := by
  intro r u hu
  rw [append_assoc] at hu ⊢
  exact h (a :: r) u hu

/-- A new child of a short node. -/
theorem Cover.short {p k : Path} {n n' : Node} {f f' : NodeFlag} {tr tr' : Tracer}
    (h : Cover S p (.short k n f) tr) (hr : Reads keccak S p tr tr')
    (hn : Cover S (p ++ k) n' tr') : Cover S p (.short k n' f') tr' := by
  intro r u hu
  rcases h r u hu with hread | habove
  · exact .inl (hr.isSome hread)
  obtain ⟨r', rfl, -⟩ := (hashAbove_short k n f r).mp habove
  rw [← append_assoc] at hu ⊢
  rcases hn r' u hu with hread | habove
  · exact .inl hread
  · exact .inr ((hashAbove_short k n' f' _).mpr ⟨r', rfl, habove⟩)

/-- A new child of a branch. -/
theorem Cover.full {p : Path} {ns : Nibble → Node} {f f' : NodeFlag} {a : Nibble} {n' : Node}
    {tr tr' : Tracer} (h : Cover S p (.full ns f) tr) (hr : Reads keccak S p tr tr')
    (hn : Cover S (p ++ [a]) n' tr') :
    Cover S p (.full (Function.update ns a n') f') tr' := by
  intro r u hu
  rcases h r u hu with hread | habove
  · exact .inl (hr.isSome hread)
  obtain ⟨b, r', rfl, habove⟩ := (hashAbove_full ns f r).mp habove
  by_cases hb : b = a
  · subst hb
    have hcons : p ++ b :: r' = p ++ [b] ++ r' := by rw [append_assoc]; rfl
    rw [hcons] at hu ⊢
    rcases hn r' u hu with hread | habove
    · exact .inl hread
    · right
      rw [HashAbove, update_self]
      exact habove
  · right
    rw [HashAbove, update_of_ne hb]
    exact habove

end Cover

end GoEthereum.Trie

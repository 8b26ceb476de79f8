import Mathlib

/-!
# Radix trees over terminated keys

Compressed tries over an alphabet with a terminator. A key is a word that ends
with the terminator and holds it nowhere else, so no key is an initial part of
another one. A tree is empty, a value, a short node that spells a word, or a
branch with one slot for each letter; the value of a key that ends at a branch
stands in the terminator's slot.

`Shape` says which trees are well formed, `Minimal` that no branch could be
dropped. A well-formed minimal tree is determined by its entries (`eq_of_lookup`).
-/

namespace Radix

open List

/-! ## Words -/

section Words

variable {α : Type}

variable {k : List α} {a : α}

section Decidable

variable [DecidableEq α]

/-- The length of the longest common initial part. -/
def prefixLen : List α → List α → Nat
  | a :: k, b :: p => if a = b then prefixLen k p + 1 else 0
  | _, _ => 0

theorem prefixLen_append_self (p k : List α) : prefixLen (p ++ k) p = p.length := by
  induction p with
  | nil => cases k <;> rfl
  | cons a p ih => simp [prefixLen, ih]

theorem prefixLen_self (p : List α) : prefixLen p p = p.length := by
  have h := prefixLen_append_self p []
  rwa [append_nil] at h

theorem prefixLen_fork {b : α} (hab : a ≠ b) (q k p : List α) :
    prefixLen (q ++ a :: k) (q ++ b :: p) = q.length := by
  induction q with
  | nil => simp [prefixLen, hab]
  | cons c q ih => simp [prefixLen, ih]

/-- Two words: one is an initial part of the other, or they part at a letter. -/
theorem prefix_or_fork (k p : List α) : (∃ k', k = p ++ k') ∨ (∃ p', p' ≠ [] ∧ p = k ++ p') ∨
      ∃ q a k' b p', a ≠ b ∧ k = q ++ a :: k' ∧ p = q ++ b :: p' := by
  induction p generalizing k with
  | nil => exact .inl ⟨k, rfl⟩
  | cons b p ih =>
    cases k with
    | nil => exact .inr (.inl ⟨b :: p, cons_ne_nil b p, rfl⟩)
    | cons a k =>
      by_cases hab : a = b
      · subst hab
        rcases ih k with ⟨k', rfl⟩ | ⟨p', hp', rfl⟩ | ⟨q, c, k', d, p', hcd, rfl, rfl⟩
        · exact .inl ⟨k', rfl⟩
        · exact .inr (.inl ⟨p', hp', rfl⟩)
        · exact .inr (.inr ⟨a :: q, c, k', d, p', hcd, rfl, rfl⟩)
      · exact .inr (.inr ⟨[], a, k, b, p, hab, rfl, rfl⟩)

end Decidable

/-- Words that part at a letter: neither starts with the other. -/
theorem not_prefix_of_fork {b : α} (hab : a ≠ b) (q k p : List α) :
    ¬ (q ++ b :: p) <+: (q ++ a :: k) := by
  rw [prefix_append_right_inj, cons_prefix_cons]
  rintro ⟨rfl, -⟩
  exact hab rfl

/-- A key: the terminator stands at its end and nowhere else. -/
def Terminated (τ : α) (k : List α) : Prop := ∃ q, k = q ++ [τ] ∧ τ ∉ q

variable {τ : α}

theorem Terminated.ne_nil (hk : Terminated τ k) : k ≠ [] := by
  obtain ⟨q, rfl, -⟩ := hk
  exact concat_ne_nil τ q

theorem Terminated.mem (hk : Terminated τ k) : τ ∈ k := by
  obtain ⟨q, rfl, -⟩ := hk
  exact mem_append_right q (mem_singleton.mpr rfl)

theorem terminated_singleton : Terminated τ [τ] := ⟨[], rfl, not_mem_nil⟩

/-- The words after a letter: keys again, unless the letter is the terminator. -/
theorem terminated_cons_iff :
    Terminated τ (a :: k) ↔ (a = τ ∧ k = []) ∨ (a ≠ τ ∧ Terminated τ k) := by
  constructor
  · rintro ⟨q, hq, hmem⟩
    cases q with
    | nil =>
      cases hq
      exact .inl ⟨rfl, rfl⟩
    | cons c q =>
      cases hq
      rw [mem_cons, not_or] at hmem
      exact .inr ⟨Ne.symm hmem.1, q, rfl, hmem.2⟩
  · rintro (⟨rfl, rfl⟩ | ⟨ha, q, rfl, hmem⟩)
    · exact terminated_singleton
    · refine ⟨a :: q, rfl, ?_⟩
      rw [mem_cons, not_or]
      exact ⟨Ne.symm ha, hmem⟩

theorem Terminated.tail (h : Terminated τ (a :: k)) (ha : a ≠ τ) : Terminated τ k :=
  ((terminated_cons_iff.mp h).resolve_left fun hend => ha hend.1).2

theorem Terminated.last (h : Terminated τ (τ :: k)) : k = [] :=
  ((terminated_cons_iff.mp h).resolve_right fun hrest => hrest.1 rfl).2

/-- After an initial part without the terminator the rest is a key. -/
theorem terminated_append_iff {p : List α} (hk : k ≠ []) :
    Terminated τ (p ++ k) ↔ τ ∉ p ∧ Terminated τ k := by
  induction p with
  | nil => simp
  | cons a p ih =>
    rw [cons_append, terminated_cons_iff, ih, mem_cons, not_or, Ne.eq_def, eq_comm (a := τ)]
    constructor
    · rintro (⟨-, hpk⟩ | h)
      · exact absurd (append_eq_nil_iff.mp hpk).2 hk
      · exact ⟨⟨h.1, h.2.1⟩, h.2.2⟩
    · rintro ⟨⟨ha, hp⟩, h⟩
      exact .inr ⟨ha, hp, h⟩

/-- What follows a part without the terminator is a key. -/
theorem Terminated.rest {q : List α} (h : Terminated τ (q ++ k)) (hq : τ ∉ q) : Terminated τ k := by
  refine ((terminated_append_iff fun hk => hq ?_).mp h).2
  rw [hk, append_nil] at h
  exact h.mem

/-- No key is an initial part of another one. -/
theorem Terminated.eq_of_append {k' : List α} (hk : Terminated τ k) (h : Terminated τ (k ++ k')) :
    k' = [] := by
  by_contra hne
  exact ((terminated_append_iff hne).mp h).1 hk.mem

/-- The word of a short node: a whole key, or a part of keys. -/
def Word (τ : α) (p : List α) : Prop := Terminated τ p ∨ τ ∉ p

/-- A key against the word of a short node: it starts with it, or they part. -/
theorem Terminated.cases [DecidableEq α] {p : List α} (hk : Terminated τ k) (hp : Word τ p) :
    (∃ k', k = p ++ k') ∨ ∃ q a k' b p', a ≠ b ∧ k = q ++ a :: k' ∧ p = q ++ b :: p' := by
  rcases prefix_or_fork k p with h | ⟨p', hne, rfl⟩ | h
  · exact .inl h
  · rcases hp with hp | hp
    · exact absurd (hk.eq_of_append hp) hne
    · exact absurd (mem_append_left p' hk.mem) hp
  · exact .inr h

end Words

/-! ## Trees -/

inductive Tree (α β : Type) : Type where
  | nil
  | value (v : β)
  | short (key : List α) (child : Tree α β)
  | full (children : α → Tree α β)

namespace Tree

variable {α β : Type}

variable {k p q r : List α} {m n : Nat} {c t u : Tree α β} {a : α} {ts : α → Tree α β} {v : β}

def isNil : Tree α β → Bool
  | nil => true
  | _ => false

theorem isNil_iff : t.isNil = true ↔ t = nil := by
  cases t <;> simp [isNil]

/-- Short nodes and branches. -/
def isNode : Tree α β → Bool
  | short _ _ => true
  | full _ => true
  | _ => false

def isFull : Tree α β → Bool
  | full _ => true
  | _ => false

/-- The entry under a key. -/
def lookup [DecidableEq α] : Tree α β → List α → Option β
  | nil, _ => none
  | value v, k => if k.isEmpty then some v else none
  | short p c, k => if p <+: k then lookup c (k.drop p.length) else none
  | full _, [] => none
  | full ts, a :: k => lookup (ts a) k

/-- The short node or branch at a path from the root. -/
def nodeAt [DecidableEq α] : Tree α β → List α → Option (Tree α β)
  | nil, _ => none
  | value _, _ => none
  | short p c, [] => some (short p c)
  | short p c, a :: r => if p <+: a :: r then nodeAt c ((a :: r).drop p.length) else none
  | full ts, [] => some (full ts)
  | full ts, a :: r => nodeAt (ts a) r

/-- A short node, or only the tree below it when there is nothing to spell. -/
def graft (p : List α) (c : Tree α β) : Tree α β :=
  match p with
  | [] => c
  | a :: p => short (a :: p) c

/-- A short node over a tree, spelled as one when the tree is a short node. -/
def merge (p : List α) : Tree α β → Tree α β
  | short q c => short (p ++ q) c
  | c => short p c

@[simp] theorem graft_nil (c : Tree α β) : graft [] c = c := rfl

theorem graft_of_ne_nil (hp : p ≠ []) (c : Tree α β) : graft p c = short p c := by
  cases p with
  | nil => exact absurd rfl hp
  | cons a p => rfl

section Lookup

variable [DecidableEq α]

@[simp] theorem lookup_nil (k : List α) : lookup (nil : Tree α β) k = none := rfl

@[simp] theorem lookup_value_nil (v : β) : lookup (value v : Tree α β) [] = some v := rfl

@[simp] theorem lookup_value_cons (v : β) (a : α) (k : List α) :
    lookup (value v : Tree α β) (a :: k) = none := rfl

@[simp] theorem lookup_full_cons (ts : α → Tree α β) (a : α) (k : List α) :
    lookup (full ts) (a :: k) = lookup (ts a) k := rfl

theorem lookup_short (p : List α) (c : Tree α β) (k : List α) :
    lookup (short p c) k = if p <+: k then lookup c (k.drop p.length) else none := rfl

theorem lookup_short_append (p : List α) (c : Tree α β) (k : List α) :
    lookup (short p c) (p ++ k) = lookup c k := by
  rw [lookup_short, if_pos (prefix_append p k), drop_left]

theorem lookup_short_eq_none (c : Tree α β) (h : ¬ p <+: k) : lookup (short p c) k = none := by
  rw [lookup_short, if_neg h]

theorem lookup_short_fork {b : α} (hab : a ≠ b) (q p k : List α) (c : Tree α β) :
    lookup (short (q ++ b :: p) c) (q ++ a :: k) = none :=
  lookup_short_eq_none c (not_prefix_of_fork hab q k p)

theorem lookup_graft_append (p : List α) (c : Tree α β) (k : List α) :
    lookup (graft p c) (p ++ k) = lookup c k := by
  cases p with
  | nil => rfl
  | cons a p => exact lookup_short_append (a :: p) c k

theorem lookup_merge_append (p : List α) (c : Tree α β) (k : List α) :
    lookup (merge p c) (p ++ k) = lookup c k := by
  cases c with
  | short q c =>
    rw [merge, lookup_short, lookup_short]
    by_cases hq : q <+: k
    · obtain ⟨k', rfl⟩ := hq
      rw [if_pos ⟨k', by rw [append_assoc]⟩, if_pos (prefix_append q k'),
        ← append_assoc, drop_left, drop_left]
    · rw [if_neg hq, if_neg]
      rw [prefix_append_right_inj]
      exact hq
  | nil => exact lookup_short_append p nil k
  | value v => exact lookup_short_append p (value v) k
  | full ts => exact lookup_short_append p (full ts) k

theorem lookup_merge_eq_none (c : Tree α β) (h : ¬ p <+: k) : lookup (merge p c) k = none := by
  cases c with
  | short q c =>
    refine lookup_short_eq_none c fun hpq => h ?_
    exact (prefix_append p q).trans hpq
  | nil => exact lookup_short_eq_none nil h
  | value v => exact lookup_short_eq_none (value v) h
  | full ts => exact lookup_short_eq_none (full ts) h

end Lookup

/-! ## The nodes of a tree -/

section Nodes

variable [DecidableEq α]

@[simp] theorem nodeAt_nil (r : List α) : nodeAt (nil : Tree α β) r = none := rfl

@[simp] theorem nodeAt_value (v : β) (r : List α) : nodeAt (value v : Tree α β) r = none := rfl

@[simp] theorem nodeAt_short_nil (p : List α) (c : Tree α β) :
    nodeAt (short p c) [] = some (short p c) := rfl

@[simp] theorem nodeAt_full_nil (ts : α → Tree α β) : nodeAt (full ts) [] = some (full ts) := rfl

@[simp] theorem nodeAt_full_cons (ts : α → Tree α β) (a : α) (r : List α) :
    nodeAt (full ts) (a :: r) = nodeAt (ts a) r := rfl

theorem nodeAt_short_cons (p : List α) (c : Tree α β) (a : α) (r : List α) :
    nodeAt (short p c) (a :: r) =
      if p <+: a :: r then nodeAt c ((a :: r).drop p.length) else none := rfl

/-- A node stands at the tree itself, behind the word of a short node, or in a slot. -/
theorem nodeAt_induction {P : Tree α β → List α → Prop} (h : nodeAt t r = some u)
    (self : u.isNode = true → P u [])
    (below : ∀ k c r, nodeAt c r = some u → k ++ r ≠ [] → P c r → P (short k c) (k ++ r))
    (slot : ∀ ts a r, nodeAt (ts a) r = some u → P (ts a) r → P (full ts) (a :: r)) : P t r := by
  induction t generalizing r with
  | nil => cases h
  | value v => cases h
  | short k c ih =>
    cases r with
    | nil =>
      cases h
      exact self rfl
    | cons a r =>
      rw [nodeAt_short_cons] at h
      split at h
      · rename_i hpre
        obtain ⟨r', hr'⟩ := hpre
        rw [← hr', drop_left] at h
        rw [← hr']
        exact below k c r' h (hr' ▸ cons_ne_nil a r) (ih h)
      · cases h
  | full ts ih =>
    cases r with
    | nil =>
      cases h
      exact self rfl
    | cons a r => exact slot ts a r h (ih a h)

/-- The nodes below a node. -/
theorem nodeAt_append (h : nodeAt t r = some u) (r' : List α) :
    nodeAt t (r ++ r') = nodeAt u r' := by
  refine nodeAt_induction (P := fun t r => nodeAt t (r ++ r') = nodeAt u r') h (fun _ => rfl)
    (fun k c r _ hne ih => ?_) fun ts a r _ ih => ih
  obtain ⟨a, l, hl⟩ := exists_cons_of_ne_nil hne
  rw [hl, cons_append, nodeAt_short_cons, ← cons_append, ← hl, append_assoc,
    if_pos (prefix_append k _), drop_left, ih]

theorem lookup_append_of_nodeAt (h : nodeAt t r = some u) (k : List α) :
    lookup t (r ++ k) = lookup u k := by
  refine nodeAt_induction (P := fun t r => lookup t (r ++ k) = lookup u k) h (fun _ => rfl)
    (fun p c r _ _ ih => ?_) fun ts a r _ ih => ih
  rw [append_assoc, lookup_short_append, ih]

theorem nodeAt_self (h : t.isNode = true) : nodeAt t [] = some t := by
  cases t with
  | nil => cases h
  | value v => cases h
  | short k c => rfl
  | full ts => rfl

theorem isNode_of_nodeAt (h : nodeAt t r = some u) : u.isNode = true :=
  nodeAt_induction (P := fun _ _ => u.isNode = true) h id (fun _ _ _ _ _ ih => ih)
    fun _ _ _ _ ih => ih

/-- A short node or a branch stands at a path. -/
def HasNode (t : Tree α β) (r : List α) : Prop := (t.nodeAt r).isSome = true

@[simp] theorem hasNode_nil (r : List α) : ¬ HasNode (nil : Tree α β) r := by
  simp [HasNode]

@[simp] theorem hasNode_value (v : β) (r : List α) : ¬ HasNode (value v : Tree α β) r := by
  simp [HasNode]

theorem nodeAt_short_append (hk : k ≠ []) (c : Tree α β) (r : List α) :
    nodeAt (short k c) (k ++ r) = nodeAt c r := by
  cases k with
  | nil => exact absurd rfl hk
  | cons a k =>
    rw [cons_append, nodeAt_short_cons, ← cons_append, if_pos (prefix_append _ r), drop_left]

theorem nodeAt_graft_append (p : List α) (c : Tree α β) (r : List α) :
    nodeAt (graft p c) (p ++ r) = nodeAt c r := by
  by_cases hp : p = []
  · subst hp
    rfl
  · rw [graft_of_ne_nil hp, nodeAt_short_append hp]

theorem hasNode_short (k : List α) (c : Tree α β) (r : List α) :
    HasNode (short k c) r ↔ r = [] ∨ ∃ r', r = k ++ r' ∧ HasNode c r' := by
  cases r with
  | nil => simp [HasNode]
  | cons a r =>
    rw [HasNode, nodeAt_short_cons]
    by_cases h : k <+: a :: r
    · obtain ⟨r', hr'⟩ := h
      rw [← hr', if_pos (prefix_append k r'), drop_left]
      constructor
      · intro hc
        exact .inr ⟨r', rfl, hc⟩
      · rintro (hnil | ⟨r'', heq, hc⟩)
        · rw [hnil] at hr'
          cases hr'
        · rw [append_cancel_left heq]
          exact hc
    · rw [if_neg h]
      constructor
      · intro hc
        cases hc
      · rintro (hnil | ⟨r', heq, -⟩)
        · cases hnil
        · exact absurd ⟨r', heq.symm⟩ h

/-- Two short nodes in a row have one node more than the short node they merge into. -/
theorem hasNode_short_append (hq : q ≠ []) (hk : k ≠ []) (c : Tree α β) (r : List α) :
    HasNode (short (q ++ k) c) r ↔ HasNode (short q (short k c)) r ∧ r ≠ q := by
  rw [hasNode_short, hasNode_short]
  constructor
  · rintro (rfl | ⟨r', rfl, h⟩)
    · exact ⟨.inl rfl, hq.symm⟩
    · rw [append_assoc]
      refine ⟨.inr ⟨k ++ r', rfl, (hasNode_short k c _).mpr (.inr ⟨r', rfl, h⟩)⟩, ?_⟩
      intro heq
      exact hk (append_eq_nil_iff.mp (self_eq_append_right.mp heq.symm)).1
  · rintro ⟨rfl | ⟨r', rfl, h⟩, hne⟩
    · exact .inl rfl
    · rcases (hasNode_short k c r').mp h with rfl | ⟨r'', rfl, hc⟩
      · exact absurd (append_nil q) hne
      · exact .inr ⟨r'', (append_assoc q k r'').symm, hc⟩

theorem hasNode_full (ts : α → Tree α β) (r : List α) :
    HasNode (full ts) r ↔ r = [] ∨ ∃ a r', r = a :: r' ∧ HasNode (ts a) r' := by
  cases r with
  | nil => simp [HasNode]
  | cons a r => simp [HasNode]

theorem hasNode_graft (k : List α) (c : Tree α β) (r : List α) :
    HasNode (graft k c) r ↔ (r = [] ∧ k ≠ []) ∨ ∃ r', r = k ++ r' ∧ HasNode c r' := by
  cases k with
  | nil => simp
  | cons a k =>
    rw [graft_of_ne_nil (cons_ne_nil a k), hasNode_short]
    simp

end Nodes

/-! ## Well-formed trees -/

variable (τ : α) (ok : β → Prop)

/-- Well-formed trees whose keys have at most `n` letters. A leaf spells the end of
a key; an extension spells no terminator and leads to a branch; a branch has a
value, if anything, in the terminator's slot and well-formed trees in the others. -/
inductive Shape : Nat → Tree α β → Prop where
  | leaf {n : Nat} {k : List α} {v : β} :
      Terminated τ k → k.length ≤ n → ok v → Shape n (short k (value v))
  | ext {n m : Nat} {k : List α} {ts : α → Tree α β} :
      k ≠ [] → τ ∉ k → k.length + m ≤ n → Shape m (full ts) → Shape n (short k (full ts))
  | full {n m : Nat} {ts : α → Tree α β} : m + 1 ≤ n → (∀ a, a ≠ τ → ts a ≠ nil → Shape m (ts a)) →
      (ts τ = nil ∨ ∃ v, ok v ∧ ts τ = value v) → Shape n (full ts)

/-- What a tree, or a slot of a branch, may hold. -/
def Fits (n : Nat) (t : Tree α β) : Prop := t = nil ∨ Shape τ ok n t

/-- Every branch has two occupied slots. -/
def Minimal : Tree α β → Prop
  | nil => True
  | value _ => True
  | short _ c => Minimal c
  | full ts => (∃ a b, a ≠ b ∧ ts a ≠ nil ∧ ts b ≠ nil) ∧ ∀ a, Minimal (ts a)

variable {τ ok}

theorem Shape.mono (h : Shape τ ok n t) (hnm : n ≤ m) : Shape τ ok m t := by
  cases h with
  | leaf hk hn hv => exact .leaf hk (hn.trans hnm) hv
  | ext hne hk hn hc => exact .ext hne hk (hn.trans hnm) hc
  | full hn hts hτ => exact .full (hn.trans hnm) hts hτ

theorem Fits.mono (h : Fits τ ok n t) (hnm : n ≤ m) : Fits τ ok m t := by
  rcases h with h | h
  · exact .inl h
  · exact .inr (h.mono hnm)

theorem fits_of_ne_nil (h : t ≠ nil → Shape τ ok n t) : Fits τ ok n t := by
  by_cases hnil : t = nil
  · exact .inl hnil
  · exact .inr (h hnil)

theorem fits_nil (n : Nat) : Fits τ ok n (nil : Tree α β) := Or.inl rfl

theorem Shape.ne_nil (h : Shape τ ok n t) : t ≠ nil := by
  cases h <;> rintro ⟨⟩

theorem Shape.isNode (h : Shape τ ok n t) : t.isNode = true := by
  cases h <;> rfl

/-- The word of a well-formed short node. -/
theorem Shape.word (h : Shape τ ok n (short k c)) : Word τ k ∧ k ≠ [] := by
  cases h with
  | leaf hk _ _ => exact ⟨.inl hk, hk.ne_nil⟩
  | ext hne hk _ _ => exact ⟨.inr hk, hne⟩

theorem Shape.slot (h : Shape τ ok n (Tree.full ts)) (ha : a ≠ τ) : Fits τ ok (n - 1) (ts a) := by
  cases h with
  | full hn hts _ =>
    by_cases hnil : ts a = nil
    · exact .inl hnil
    · exact .inr ((hts a ha hnil).mono (by omega))

theorem Shape.valueSlot (h : Shape τ ok n (Tree.full ts)) :
    ts τ = nil ∨ ∃ v, ok v ∧ ts τ = value v := by
  cases h with
  | full _ _ hτ => exact hτ

theorem Shape.pos (h : Shape τ ok n t) : 0 < n := by
  cases h with
  | leaf hk hn _ => exact (length_pos_iff.mpr hk.ne_nil).trans_le hn
  | ext hne _ hn _ =>
    have := length_pos_iff.mpr hne
    omega
  | full hn _ _ => omega

/-- A branch is well formed when its slots are. -/
theorem shape_full (hn : 0 < n) (hts : ∀ a, a ≠ τ → Fits τ ok (n - 1) (ts a))
    (hτ : ts τ = nil ∨ ∃ v, ok v ∧ ts τ = value v) : Shape τ ok n (Tree.full ts) :=
  .full (by omega) (fun a ha hne => (hts a ha).resolve_left hne) hτ

/-! ## A minimal tree is determined by its entries -/

variable [DecidableEq α]

/-- All entries of a short node start with its word. -/
theorem prefix_of_lookup_short (h : lookup (short p c) k = some v) : p <+: k := by
  by_contra hp
  rw [lookup_short_eq_none c hp] at h
  cases h

theorem lookup_leaf_eq_some {w : β} (h : lookup (short p (value w)) k = some v) :
    k = p ∧ v = w := by
  obtain ⟨k', rfl⟩ := prefix_of_lookup_short h
  rw [lookup_short_append] at h
  cases k' with
  | nil =>
    cases h
    exact ⟨append_nil p, rfl⟩
  | cons a k' => cases h

/-- An entry has a terminated key of the size, and a value of the kind, that the tree
allows. -/
theorem Shape.entry (h : Shape τ ok n t) (hk : lookup t k = some v) :
    Terminated τ k ∧ k.length ≤ n ∧ ok v := by
  induction h generalizing k with
  | @leaf n p w hp hn hw =>
    obtain ⟨rfl, rfl⟩ := lookup_leaf_eq_some hk
    exact ⟨hp, hn, hw⟩
  | @ext n m p ts hne hp hn hc ih =>
    obtain ⟨k', rfl⟩ := prefix_of_lookup_short hk
    rw [lookup_short_append] at hk
    obtain ⟨hk', hlen, hv⟩ := ih hk
    refine ⟨(terminated_append_iff hk'.ne_nil).mpr ⟨hp, hk'⟩, ?_, hv⟩
    rw [length_append]
    omega
  | @full n m ts hn hts hτ ih =>
    cases k with
    | nil => cases hk
    | cons a k =>
      have hk' : lookup (ts a) k = some v := hk
      by_cases ha : a = τ
      · subst ha
        rcases hτ with hτ | ⟨w, hw, hτ⟩
        · rw [hτ] at hk'
          cases hk'
        rw [hτ] at hk'
        cases k with
        | nil =>
          cases hk'
          exact ⟨terminated_singleton, by rw [length_singleton]; omega, hw⟩
        | cons b k => cases hk'
      · have hnil : ts a ≠ nil := by
          intro hnil
          rw [hnil] at hk'
          cases hk'
        obtain ⟨hterm, hlen, hv⟩ := ih a ha hnil hk'
        refine ⟨terminated_cons_iff.mpr (.inr ⟨ha, hterm⟩), ?_, hv⟩
        rw [length_cons]
        omega

theorem Shape.terminated (h : Shape τ ok n t) (hk : lookup t k = some v) : Terminated τ k :=
  (h.entry hk).1

theorem Minimal.nodeAt (h : Minimal t) (hu : nodeAt t r = some u) : Minimal u :=
  nodeAt_induction (P := fun t _ => Minimal t → Minimal u) hu (fun _ h => h)
    (fun _ _ _ _ _ ih h => ih h) (fun _ a _ _ ih h => ih (h.2 a)) h

/-- The node at a path is well formed, and the path does not end any key. -/
theorem Shape.nodeAt (h : Shape τ ok n t) (hu : nodeAt t r = some u) : Shape τ ok n u ∧ τ ∉ r := by
  refine nodeAt_induction (P := fun t r => ∀ {n}, Shape τ ok n t → Shape τ ok n u ∧ τ ∉ r) hu
    (fun _ _ h => ⟨h, not_mem_nil⟩) (fun k c r hc _ ih n h => ?_) (fun ts a r ha ih n h => ?_) h
  · cases h with
    | leaf => cases hc
    | ext _ hk hn hts =>
      obtain ⟨hshape, hmem⟩ := ih hts
      rw [mem_append, not_or]
      exact ⟨hshape.mono (by omega), hk, hmem⟩
  · have hne : a ≠ τ := by
      rintro rfl
      rcases h.valueSlot with hτ | ⟨w, -, hτ⟩
      · rw [hτ] at ha
        cases ha
      · rw [hτ] at ha
        cases ha
    rcases h.slot hne with hnil | hslot
    · rw [hnil] at ha
      cases ha
    · obtain ⟨hshape, hmem⟩ := ih hslot
      rw [mem_cons, not_or]
      exact ⟨hshape.mono (Nat.sub_le n 1), Ne.symm hne, hmem⟩

/-- A minimal tree is not empty. -/
theorem Shape.exists_entry (h : Shape τ ok n t) (hmin : Minimal t) :
    ∃ k v, lookup t k = some v := by
  induction h with
  | @leaf _ p w hp _ _ =>
    refine ⟨p, w, ?_⟩
    have := lookup_short_append p (value w) []
    rwa [append_nil] at this
  | @ext _ _ p ts hne hp _ hc ih =>
    obtain ⟨k, v, hk⟩ := ih hmin
    exact ⟨p ++ k, v, by rw [lookup_short_append]; exact hk⟩
  | @full _ _ ts _ hts hτ ih =>
    obtain ⟨⟨a, b, -, ha, -⟩, hmins⟩ := hmin
    by_cases haτ : a = τ
    · subst haτ
      rcases hτ with hτ | ⟨w, -, hτ⟩
      · exact absurd hτ ha
      · exact ⟨[a], w, by rw [lookup_full_cons, hτ]; rfl⟩
    · obtain ⟨k, v, hk⟩ := ih a haτ ha (hmins a)
      exact ⟨a :: k, v, hk⟩

section

variable (h : Shape τ ok n (Tree.full ts)) (hmin : Minimal (Tree.full ts))
include h hmin

/-- An occupied slot of a minimal branch leads to an entry. -/
theorem Shape.exists_entry_slot
    (ha : ts a ≠ nil) : ∃ k v, lookup (Tree.full ts) (a :: k) = some v := by
  by_cases haτ : a = τ
  · subst haτ
    rcases h.valueSlot with hτ | ⟨w, -, hτ⟩
    · exact absurd hτ ha
    · exact ⟨[], w, by rw [lookup_full_cons, hτ]; rfl⟩
  · rcases h.slot haτ with hnil | hs
    · exact absurd hnil ha
    · exact hs.exists_entry (hmin.2 a)

/-- Two entries of a minimal branch differ in their first letter. -/
theorem Shape.two_entries :
    ∃ a b k k' v v', a ≠ b ∧ lookup (Tree.full ts) (a :: k) = some v ∧
      lookup (Tree.full ts) (b :: k') = some v' := by
  obtain ⟨a, b, hab, ha, hb⟩ := hmin.1
  obtain ⟨k, v, hk⟩ := h.exists_entry_slot hmin ha
  obtain ⟨k', v', hk'⟩ := h.exists_entry_slot hmin hb
  exact ⟨a, b, k, k', v, v', hab, hk, hk'⟩

/-- The word of an extension is the longest common initial part of its entries. -/
theorem ext_word_prefix
    (heq : ∀ k, lookup (short p (Tree.full ts)) k = lookup (short q c) k) : q <+: p := by
  obtain ⟨a, b, k, k', v, v', hab, hk, hk'⟩ := h.two_entries hmin
  have h₁ : q <+: p ++ a :: k := by
    apply prefix_of_lookup_short (c := c) (v := v)
    rw [← heq, lookup_short_append]
    exact hk
  have h₂ : q <+: p ++ b :: k' := by
    apply prefix_of_lookup_short (c := c) (v := v')
    rw [← heq, lookup_short_append]
    exact hk'
  rcases prefix_or_fork q p with ⟨q', rfl⟩ | ⟨p', -, rfl⟩ | ⟨r, x, q', y, p', hxy, rfl, rfl⟩
  · -- a longer word would fix the letter after `p`
    cases q' with
    | nil => rw [append_nil]
    | cons x q' =>
      rw [prefix_append_right_inj, cons_prefix_cons] at h₁ h₂
      exact absurd (h₁.1.symm.trans h₂.1) hab
  · exact prefix_append q p'
  · rw [append_assoc] at h₁
    exact absurd h₁ (not_prefix_of_fork (Ne.symm hxy) r _ q')

/-- A leaf and a minimal branch below a word have different entries. -/
theorem leaf_ne_ext {w : β}
    (heq : ∀ k, lookup (short p (value w)) k = lookup (graft q (Tree.full ts)) k) : False := by
  obtain ⟨a, b, k, k', v, v', hab, hk, hk'⟩ := h.two_entries hmin
  have h₁ : q ++ a :: k = p := by
    apply (lookup_leaf_eq_some (w := w) (v := v) _).1
    rw [heq, lookup_graft_append]
    exact hk
  have h₂ : q ++ b :: k' = p := by
    apply (lookup_leaf_eq_some (w := w) (v := v') _).1
    rw [heq, lookup_graft_append]
    exact hk'
  have h₃ := append_cancel_left (h₁.trans h₂.symm)
  exact hab (cons.inj h₃).1

/-- A minimal branch and a short node have different entries. -/
theorem full_ne_short
    (hp : p ≠ []) (heq : ∀ k, lookup (Tree.full ts) k = lookup (short p c) k) : False := by
  obtain ⟨a, b, k, k', v, v', hab, hk, hk'⟩ := h.two_entries hmin
  rw [heq] at hk hk'
  have h₁ := prefix_of_lookup_short hk
  have h₂ := prefix_of_lookup_short hk'
  cases p with
  | nil => exact hp rfl
  | cons x p =>
    rw [cons_prefix_cons] at h₁ h₂
    exact hab (h₁.1.symm.trans h₂.1)

end

/-- Well-formed minimal trees with the same entries are the same tree. -/
theorem Shape.eq_of_lookup {t' : Tree α β} (h : Shape τ ok n t) (hmin : Minimal t)
    (h' : Shape τ ok m t') (hmin' : Minimal t') (heq : ∀ k, lookup t k = lookup t' k) : t = t' := by
  induction h generalizing m t' with
  | @leaf _ p w hp _ _ =>
    cases h' with
    | @leaf _ q w' hq _ _ =>
      have hk : lookup (short p (value w)) p = some w := by
        have := lookup_short_append p (value w) []
        rwa [append_nil] at this
      rw [heq] at hk
      obtain ⟨rfl, rfl⟩ := lookup_leaf_eq_some hk
      rfl
    | @ext _ _ q ts hne hq _ hc =>
      exact (leaf_ne_ext (q := q) hc hmin' (by rw [graft_of_ne_nil hne]; exact heq)).elim
    | @full _ _ ts hn hts hτ =>
      exact (leaf_ne_ext (q := []) (.full hn hts hτ) hmin' heq).elim
  | @ext _ _ p ts hne hp _ hc ih =>
    cases h' with
    | @leaf _ q w' hq _ _ =>
      exact (leaf_ne_ext (q := p) hc hmin
        (by rw [graft_of_ne_nil hne]; exact fun k => (heq k).symm)).elim
    | @ext _ _ q ts' hne' hq _ hc' =>
      have h₁ := ext_word_prefix hc hmin heq
      have h₂ := ext_word_prefix hc' hmin' (fun k => (heq k).symm)
      have hpq : q = p := h₁.eq_of_length (le_antisymm h₁.length_le h₂.length_le)
      subst hpq
      have hts := ih hmin hc' hmin' (fun k => by
        have := heq (q ++ k)
        rwa [lookup_short_append, lookup_short_append] at this)
      rw [hts]
    | @full _ _ ts' hn hts hτ =>
      exact (full_ne_short (.full hn hts hτ) hmin' hne (fun k => (heq k).symm)).elim
  | @full _ _ ts hn hts hτ ih =>
    cases h' with
    | @leaf _ q w' hq _ _ =>
      exact (full_ne_short (.full hn hts hτ) hmin hq.ne_nil heq).elim
    | @ext _ _ q ts' hne' hq _ hc' =>
      exact (full_ne_short (.full hn hts hτ) hmin hne' heq).elim
    | @full _ _ ts' hn' hts' hτ' =>
      congr 1
      funext a
      have heqa : ∀ k, lookup (ts a) k = lookup (ts' a) k := fun k => heq (a :: k)
      have hslot := Shape.exists_entry_slot (.full hn hts hτ) hmin (a := a)
      have hslot' := Shape.exists_entry_slot (.full hn' hts' hτ') hmin' (a := a)
      by_cases hnil : ts a = nil
      · -- an occupied slot on one side only would hold an entry
        by_contra hne
        obtain ⟨k, v, hk⟩ := hslot' (by rw [← hnil]; exact Ne.symm hne)
        rw [lookup_full_cons, ← heqa, hnil] at hk
        cases hk
      · have hnil' : ts' a ≠ nil := by
          intro hnil'
          obtain ⟨k, v, hk⟩ := hslot hnil
          rw [lookup_full_cons, heqa, hnil'] at hk
          cases hk
        by_cases ha : a = τ
        · subst ha
          obtain ⟨w, -, hw⟩ := hτ.resolve_left hnil
          obtain ⟨w', -, hw'⟩ := hτ'.resolve_left hnil'
          have := heqa []
          rw [hw, hw'] at this
          rw [hw, hw', Option.some.inj this]
        · exact ih a ha hnil (hmin.2 a) (hts' a ha hnil') (hmin'.2 a) heqa

theorem Fits.eq_of_lookup {t' : Tree α β} (h : Fits τ ok n t) (hmin : Minimal t)
    (h' : Fits τ ok m t') (hmin' : Minimal t')
    (heq : ∀ k, Terminated τ k → lookup t k = lookup t' k) : t = t' := by
  have hall : ∀ k, lookup t k = lookup t' k := by
    intro k
    by_cases hk : Terminated τ k
    · exact heq k hk
    have hnone : ∀ {n : Nat} {t : Tree α β}, Fits τ ok n t → lookup t k = none := by
      intro n t ht
      rcases ht with rfl | ht
      · rfl
      · rw [Option.eq_none_iff_forall_ne_some]
        intro v hv
        exact hk (ht.terminated hv)
    rw [hnone h, hnone h']
  rcases h with rfl | h
  · rcases h' with rfl | h'
    · rfl
    · obtain ⟨k, v, hk⟩ := h'.exists_entry hmin'
      rw [← hall] at hk
      cases hk
  · rcases h' with rfl | h'
    · obtain ⟨k, v, hk⟩ := h.exists_entry hmin
      rw [hall] at hk
      cases hk
    · exact h.eq_of_lookup hmin h' hmin' hall

end Tree

end Radix

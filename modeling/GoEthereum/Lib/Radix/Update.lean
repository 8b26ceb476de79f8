import GoEthereum.Lib.Radix.Tree

/-!
# Inserting into and deleting from a radix tree

Insertion splits a short node where the key parts from it; deletion takes an entry
out and contracts a branch that is left with a single occupied slot. Both change
one entry and no other, and both keep trees well formed and minimal.
-/

namespace Radix.Tree

open List Function

variable {α β : Type}

variable {k' : List α} {m : Nat} {j : α} {ts : α → Tree α β}

/-! ## Along a key -/

section Along

variable [DecidableEq α] {τ : α} {ok : β → Prop} {n : Nat} {t : Tree α β} {k : List α}

/-- Induction along a key: it ends at an empty slot, at a value or a leaf, it parts from
the word of a short node, or it goes on below an extension or a branch. -/
theorem Fits.along {motive : Nat → Tree α β → List α → Prop}
    (nil : ∀ n k, k = [] ∨ Terminated τ k → motive n nil k)
    (value : ∀ n w, ok w → motive n (value w) [])
    (leaf : ∀ n p w, Terminated τ p → p.length ≤ n → ok w → motive n (short p (.value w)) p)
    (fork : ∀ n q a k b p c, a ≠ b → Terminated τ (q ++ a :: k) →
      Shape τ ok n (short (q ++ b :: p) c) → motive n (short (q ++ b :: p) c) (q ++ a :: k))
    (ext : ∀ n p k ts, p ≠ [] → τ ∉ p → p.length ≤ n → Shape τ ok (n - p.length) (full ts) →
      motive (n - p.length) (full ts) k → k ≠ [] → motive n (short p (full ts)) (p ++ k))
    (full : ∀ n a k ts, Shape τ ok n (full ts) → Terminated τ (a :: k) →
      motive (n - 1) (ts a) k → motive n (full ts) (a :: k))
    (h : Fits τ ok n t) (hk : Terminated τ k) : motive n t k := by
  induction t generalizing n k with
  | nil => exact nil n k (.inr hk)
  | value w =>
    rcases h with h | h
    · cases h
    · cases h
  | short p c ih =>
    obtain hc := h.resolve_left fun h => by cases h
    rcases hk.cases hc.word.1 with ⟨r, rfl⟩ | ⟨q, a, r, b, p', hab, rfl, rfl⟩
    · cases hc with
      | leaf hp hpn hw =>
        obtain rfl := hp.eq_of_append hk
        rw [append_nil]
        exact leaf n p _ hp hpn hw
      | @ext _ m _ ts hne hp hpn hts =>
        have hts' : Shape τ ok (n - p.length) (Tree.full ts) := hts.mono (by omega)
        have hr := hk.rest hp
        exact ext n p r ts hne hp (by omega) hts' (ih (.inr hts') hr) hr.ne_nil
    · exact fork n q a r b p' c hab hk hc
  | full ts ih =>
    obtain hf := h.resolve_left fun h => by cases h
    cases k with
    | nil => exact absurd rfl hk.ne_nil
    | cons a k =>
      refine full n a k ts hf hk ?_
      rcases terminated_cons_iff.mp hk with ⟨rfl, rfl⟩ | ⟨ha, hk⟩
      · rcases hf.valueSlot with hτ | ⟨w, hw, hτ⟩
        · rw [hτ]
          exact nil _ _ (.inl rfl)
        · rw [hτ]
          exact value _ w hw
      · exact ih a (hf.slot ha) hk

/-- Changing one slot of a branch. -/
theorem Shape.update {a : α} {c : Tree α β} (h : Shape τ ok n (Tree.full ts))
    (hc : a ≠ τ → Fits τ ok (n - 1) c) (hcτ : a = τ → c = nil ∨ ∃ v, ok v ∧ c = value v) :
    Shape τ ok n (Tree.full (update ts a c)) := by
  apply shape_full h.pos
  · intro x hx
    by_cases hxa : x = a
    · subst hxa
      rw [update_self]
      exact hc hx
    · rw [update_of_ne hxa]
      exact h.slot hx
  · by_cases haτ : a = τ
    · subst haτ
      rw [update_self]
      exact hcτ rfl
    · rw [update_of_ne (Ne.symm haτ)]
      exact h.valueSlot

end Along

/-! ## Insertion -/

section Insert

variable [DecidableEq α]

variable {k p : List α} {n : Nat} {a b : α}

/-- Put `v` under a key. Below a value only the empty word is meaningful. -/
def insert : Tree α β → List α → β → Tree α β
  | _, [], v => value v
  | nil, a :: k, v => short (a :: k) (value v)
  | value w, _ :: _, _ => value w
  | short p c, a :: k, v =>
    if prefixLen (a :: k) p = p.length then
      short p (insert c ((a :: k).drop p.length) v)
    else
      match p.drop (prefixLen (a :: k) p), (a :: k).drop (prefixLen (a :: k) p) with
      | b :: p', x :: k' =>
        graft ((a :: k).take (prefixLen (a :: k) p))
          (full (update (update (fun _ => nil) b (graft p' c)) x
            (graft k' (value v))))
      | _, _ => short p c
  | full ts, a :: k, v => full (update ts a (insert (ts a) k v))

/-- The branch at which an old and a new word part. -/
def fork (a b : α) (k p : List α) (c : Tree α β) (v : β) : Tree α β :=
  full (update (update (fun _ => nil) b (graft p c)) a (graft k (value v)))

@[simp] theorem insert_key_nil (t : Tree α β) (v : β) : insert t [] v = value v := by
  cases t <;> rfl

theorem insert_nil (k : List α) (v : β) : insert nil k v = graft k (value v) := by
  cases k <;> rfl

@[simp] theorem insert_full_cons (ts : α → Tree α β) (a : α) (k : List α) (v : β) :
    insert (full ts) (a :: k) v = full (update ts a (insert (ts a) k v)) := rfl

theorem insert_short_append (hp : p ≠ []) (c : Tree α β) (k : List α) (v : β) :
    insert (short p c) (p ++ k) v = short p (insert c k v) := by
  cases p with
  | nil => exact absurd rfl hp
  | cons b p =>
    rw [cons_append, insert, ← cons_append, prefixLen_append_self, if_pos rfl, drop_left]

theorem insert_leaf_self (hp : p ≠ []) (w v : β) :
    insert (short p (value w)) p v = short p (value v) := by
  have h := insert_short_append hp (value w) [] v
  rwa [append_nil, insert_key_nil] at h

theorem insert_short_fork (hab : a ≠ b) (q k p : List α) (c : Tree α β) (v : β) :
    insert (short (q ++ b :: p) c) (q ++ a :: k) v = graft q (fork a b k p c v) := by
  have hlen : q.length ≠ (q ++ b :: p).length := by
    rw [length_append, length_cons]
    omega
  cases hqk : q ++ a :: k with
  | nil => exact absurd hqk (append_ne_nil_of_right_ne_nil q (cons_ne_nil a k))
  | cons x k' =>
    rw [insert, ← hqk, prefixLen_fork hab, if_neg hlen, drop_left, drop_left, take_left]
    rfl

omit [DecidableEq α] in
theorem graft_ne_nil (p : List α) {c : Tree α β} (hc : c ≠ nil) : graft p c ≠ nil := by
  cases p with
  | nil => exact hc
  | cons a p => rintro ⟨⟩

theorem insert_ne_nil (t : Tree α β) (k : List α) (v : β) : insert t k v ≠ nil := by
  cases k with
  | nil =>
    rw [insert_key_nil]
    rintro ⟨⟩
  | cons a k =>
    cases t with
    | nil => rintro ⟨⟩
    | value w => rintro ⟨⟩
    | full ts => rintro ⟨⟩
    | short p c =>
      rw [insert]
      split
      · rintro ⟨⟩
      · split
        · exact graft_ne_nil _ fun h => by cases h
        · rintro ⟨⟩

theorem lookup_leaf (p k : List α) (v : β) :
    lookup (short p (value v)) k = if k = p then some v else none := by
  by_cases hk : k = p
  · subst hk
    rw [if_pos rfl]
    have := lookup_short_append k (value v) []
    rwa [append_nil] at this
  · rw [if_neg hk, Option.eq_none_iff_forall_ne_some]
    intro w hw
    exact hk (lookup_leaf_eq_some hw).1

theorem lookup_graft_value (p k : List α) (v : β) :
    lookup (graft p (value v)) k = if k = p then some v else none := by
  cases p with
  | nil => cases k <;> rfl
  | cons a p => exact lookup_leaf (a :: p) k v

/-- The entries of a short node below a part of its word. -/
theorem lookup_short_append_append (q p k : List α) (c : Tree α β) :
    lookup (short (q ++ p) c) (q ++ k) = lookup (graft p c) k := by
  cases p with
  | nil => rw [append_nil, lookup_short_append, graft_nil]
  | cons a p =>
    show _ = lookup (short (a :: p) c) k
    simp only [lookup, prefix_append_right_inj, length_append, drop_length_add_append]

theorem lookup_fork_cons (hab : a ≠ b) (k p : List α) (c : Tree α β) (v : β) (x : α) (r : List α) :
    lookup (fork a b k p c v) (x :: r) = if x = a then (if r = k then some v else none)
      else if x = b then lookup (graft p c) r else none := by
  rw [fork, lookup_full_cons]
  by_cases hxa : x = a
  · subst hxa
    rw [update_self, lookup_graft_value, if_pos rfl]
  rw [update_of_ne hxa, if_neg hxa]
  by_cases hxb : x = b
  · subst hxb
    rw [update_self, if_pos rfl]
  · rw [update_of_ne hxb, if_neg hxb, lookup_nil]

variable {τ : α} {ok : β → Prop}

variable {c t : Tree α β} {v : β}

/-- The nodes of a split short node: those it had, and the ones it was split into. -/
theorem hasNode_graft_fork (hab : a ≠ b) (q k p : List α) (c : Tree α β) (v : β) (r : List α) :
    HasNode (graft q (fork a b k p c v)) r ↔
      ((HasNode (short (q ++ b :: p) c) r ∨ (p ≠ [] ∧ r = q ++ [b])) ∨
        (k ≠ [] ∧ r = q ++ [a])) ∨ (q ≠ [] ∧ r = q) := by
  have hbranch : ∀ r', HasNode (fork a b k p c v) r' ↔
      r' = [] ∨ (∃ r'', r' = b :: p ++ r'' ∧ HasNode c r'') ∨ (p ≠ [] ∧ r' = [b]) ∨
        (k ≠ [] ∧ r' = [a]) := by
    intro r'
    rw [fork, hasNode_full]
    refine or_congr Iff.rfl ⟨?_, ?_⟩
    · rintro ⟨x, r'', rfl, h⟩
      by_cases hxa : x = a
      · subst hxa
        rw [update_self, hasNode_graft] at h
        rcases h with ⟨rfl, hk⟩ | ⟨r', -, h⟩
        · exact .inr (.inr ⟨hk, rfl⟩)
        · exact absurd h (hasNode_value v r')
      · rw [update_of_ne hxa] at h
        by_cases hxb : x = b
        · subst hxb
          rw [update_self, hasNode_graft] at h
          rcases h with ⟨rfl, hp⟩ | ⟨r', rfl, h⟩
          · exact .inr (.inl ⟨hp, rfl⟩)
          · exact .inl ⟨r', rfl, h⟩
        · rw [update_of_ne hxb] at h
          exact absurd h (hasNode_nil r'')
    · rintro (⟨r'', rfl, h⟩ | ⟨hp, rfl⟩ | ⟨hk, rfl⟩)
      · refine ⟨b, p ++ r'', rfl, ?_⟩
        rw [update_of_ne (Ne.symm hab), update_self, hasNode_graft]
        exact .inr ⟨r'', rfl, h⟩
      · refine ⟨b, [], rfl, ?_⟩
        rw [update_of_ne (Ne.symm hab), update_self, hasNode_graft]
        exact .inl ⟨rfl, hp⟩
      · refine ⟨a, [], rfl, ?_⟩
        rw [update_self, hasNode_graft]
        exact .inl ⟨rfl, hk⟩
  rw [hasNode_graft, hasNode_short]
  constructor
  · rintro (⟨rfl, -⟩ | ⟨r', rfl, h⟩)
    · exact .inl (.inl (.inl (.inl rfl)))
    · rcases (hbranch r').mp h with rfl | ⟨r'', rfl, hc⟩ | ⟨hp, rfl⟩ | ⟨hk, rfl⟩
      · by_cases hq : q = []
        · subst hq
          exact .inl (.inl (.inl (.inl rfl)))
        · exact .inr ⟨hq, append_nil q⟩
      · refine .inl (.inl (.inl (.inr ⟨r'', ?_, hc⟩)))
        rw [append_assoc]
      · exact .inl (.inl (.inr ⟨hp, rfl⟩))
      · exact .inl (.inr ⟨hk, rfl⟩)
  · rintro ((((rfl | ⟨r'', rfl, h⟩) | ⟨hp, rfl⟩) | ⟨hk, rfl⟩) | ⟨hq, rfl⟩)
    · by_cases hq : q = []
      · subst hq
        exact .inr ⟨[], rfl, (hbranch []).mpr (.inl rfl)⟩
      · exact .inl ⟨rfl, hq⟩
    · refine .inr ⟨b :: p ++ r'', ?_, (hbranch _).mpr (.inr (.inl ⟨r'', rfl, h⟩))⟩
      rw [append_assoc]
    · exact .inr ⟨[b], rfl, (hbranch _).mpr (.inr (.inr (.inl ⟨hp, rfl⟩)))⟩
    · exact .inr ⟨[a], rfl, (hbranch _).mpr (.inr (.inr (.inr ⟨hk, rfl⟩)))⟩
    · exact .inr ⟨[], (append_nil r).symm, (hbranch []).mpr (.inl rfl)⟩

/-- Splitting a short node adds the new entry and keeps the old ones. -/
theorem lookup_insert_fork (hab : a ≠ b) (q k p : List α) (c : Tree α β) (v : β)
    (k' : List α) : lookup (graft q (fork a b k p c v)) k' =
      if k' = q ++ a :: k then some v else lookup (short (q ++ b :: p) c) k' := by
  by_cases hq : q <+: k'
  · obtain ⟨r, rfl⟩ := hq
    simp only [lookup_graft_append, lookup_short_append_append, append_right_inj]
    cases r with
    | nil => rfl
    | cons x r =>
      simp only [lookup_fork_cons hab, cons.injEq]
      show _ = if x = a ∧ r = k then some v else lookup (short (b :: p) c) (x :: r)
      by_cases hxa : x = a
      · subst hxa
        rw [if_pos rfl]
        by_cases hr : r = k
        · rw [if_pos hr, if_pos ⟨rfl, hr⟩]
        · rw [if_neg hr, if_neg fun h => hr h.2]
          exact (lookup_short_fork hab [] p r c).symm
      · have hnot : ¬ (x = a ∧ r = k) := fun h => hxa h.1
        rw [if_neg hxa, if_neg hnot]
        by_cases hxb : x = b
        · subst hxb
          rw [if_pos rfl]
          exact (lookup_short_append_append [x] p r c).symm
        · rw [if_neg hxb]
          exact (lookup_short_fork hxb [] p r c).symm
  · have hne : k' ≠ q ++ a :: k := by
      rintro rfl
      exact hq (prefix_append q _)
    have hqne : q ≠ [] := by
      rintro rfl
      exact hq nil_prefix
    rw [if_neg hne, graft_of_ne_nil hqne, lookup_short_eq_none _ hq, lookup_short_eq_none]
    exact fun h => hq ((prefix_append q _).trans h)

/-- Insertion changes one entry and no other. -/
theorem lookup_insert (h : Fits τ ok n t) (hk : Terminated τ k) (k' : List α) (v : β) :
    lookup (insert t k v) k' = if k' = k then some v else lookup t k' := by
  revert k'
  refine Fits.along (motive := fun _ t k => ∀ k', lookup (insert t k v) k' =
    if k' = k then some v else lookup t k') ?nil ?value ?leaf ?fork ?ext ?full h hk
  case nil =>
    intro _ k _ k'
    rw [insert_nil, lookup_graft_value, lookup_nil]
  case value =>
    intro _ w _ k'
    cases k' <;> rfl
  case leaf =>
    intro _ p w hp _ _ k'
    rw [insert_leaf_self hp.ne_nil, lookup_leaf, lookup_leaf]
    split <;> rfl
  case fork =>
    intro _ q a r b p c hab _ _ k'
    rw [insert_short_fork hab]
    exact lookup_insert_fork hab q r p c v k'
  case ext =>
    intro _ p r ts hne _ _ _ ih _ k'
    rw [insert_short_append hne]
    by_cases hpk : p <+: k'
    · obtain ⟨r', rfl⟩ := hpk
      simp only [lookup_short_append, append_right_inj]
      exact ih r'
    · rw [lookup_short_eq_none _ hpk, lookup_short_eq_none _ hpk, if_neg]
      rintro rfl
      exact hpk (prefix_append p r)
  case full =>
    intro _ a k ts _ _ ih k'
    cases k' with
    | nil => rfl
    | cons x k' =>
      simp only [insert_full_cons, lookup_full_cons, cons.injEq]
      by_cases hxa : x = a
      · subst hxa
        rw [update_self]
        simp only [true_and]
        exact ih k'
      · rw [update_of_ne hxa, if_neg fun h => hxa h.1]

omit [DecidableEq α] in
/-- A leaf for the rest of a key. -/
theorem fits_graft_value (hk : Terminated τ k) (hn : k.length ≤ n) (hv : ok v) :
    Shape τ ok n (graft k (value v)) := by
  rw [graft_of_ne_nil hk.ne_nil]
  exact .leaf hk hn hv

/-- The branch of a split is well formed when both its sides are. -/
theorem shape_fork (hab : a ≠ b) (hn : 0 < n) (hv : ok v) (hk : Terminated τ (a :: k))
    (hkn : (a :: k).length ≤ n) (hb : b ≠ τ → Shape τ ok (n - 1) (graft p c))
    (hbτ : b = τ → ∃ w, ok w ∧ graft p c = value w) : Shape τ ok n (fork a b k p c v) := by
  apply shape_full hn
  · intro x hx
    by_cases hxa : x = a
    · subst hxa
      rw [update_self]
      rw [length_cons] at hkn
      exact .inr (fits_graft_value (hk.tail hx) (by omega) hv)
    · rw [update_of_ne hxa]
      by_cases hxb : x = b
      · subst hxb
        rw [update_self]
        exact .inr (hb hx)
      · rw [update_of_ne hxb]
        exact .inl rfl
  · by_cases haτ : a = τ
    · subst haτ
      rw [update_self, hk.last]
      exact .inr ⟨v, hv, rfl⟩
    · rw [update_of_ne (Ne.symm haτ)]
      by_cases hbτ' : b = τ
      · subst hbτ'
        rw [update_self]
        exact .inr (hbτ rfl)
      · rw [update_of_ne (Ne.symm hbτ')]
        exact .inl rfl

omit [DecidableEq α] in
/-- A word without the terminator over a branch. -/
theorem shape_graft_full {q : List α} (hq : τ ∉ q) (hn : q.length + m ≤ n)
    (h : Shape τ ok m (Tree.full ts)) : Shape τ ok n (graft q (Tree.full ts)) := by
  cases q with
  | nil =>
    rw [graft_nil]
    exact h.mono (by simpa using hn)
  | cons a q => exact .ext (cons_ne_nil a q) hq hn h

theorem shape_insert (h : Fits τ ok n t) (hk : Terminated τ k) (hkn : k.length ≤ n) (hv : ok v) :
    Shape τ ok n (insert t k v) := by
  refine Fits.along (motive := fun n t k => k.length ≤ n → k ≠ [] → Shape τ ok n (insert t k v))
    ?nil ?value ?leaf ?fork ?ext ?full h hk hkn hk.ne_nil
  case nil =>
    intro n k hk hkn hne
    rw [insert_nil]
    exact fits_graft_value (hk.resolve_left hne) hkn hv
  case value =>
    intro _ _ _ _ hne
    exact absurd rfl hne
  case leaf =>
    intro n p w hp hpn _ _ _
    rw [insert_leaf_self hp.ne_nil]
    exact .leaf hp hpn hv
  case fork =>
    intro n q a r b p c hab hk hc hkn _
    rw [insert_short_fork hab]
    obtain ⟨hqτ, hk⟩ := (terminated_append_iff (cons_ne_nil a r)).mp hk
    simp only [length_append, length_cons] at hkn
    have hside : (b ≠ τ → Shape τ ok (n - q.length - 1) (graft p c)) ∧
        (b = τ → ∃ w, ok w ∧ graft p c = value w) := by
      cases hc with
      | @leaf _ _ w hp hpn hw =>
        have hp := ((terminated_append_iff (cons_ne_nil b p)).mp hp).2
        simp only [length_append, length_cons] at hpn
        constructor
        · intro hbτ
          exact fits_graft_value (hp.tail hbτ) (by omega) hw
        · rintro rfl
          rw [hp.last]
          exact ⟨w, hw, rfl⟩
      | @ext _ m _ ts _ hp hpn hts =>
        simp only [length_append, length_cons] at hpn
        rw [mem_append, not_or, mem_cons, not_or] at hp
        constructor
        · intro _
          exact shape_graft_full hp.2.2 (by omega) hts
        · intro hbτ
          exact absurd hbτ.symm hp.2.1
    exact shape_graft_full (m := n - q.length) hqτ (by omega)
      (shape_fork hab (by omega) hv hk (by rw [length_cons]; omega) hside.1 hside.2)
  case ext =>
    intro n p r ts hne hp hpn _ ih hr hkn _
    rw [length_append] at hkn
    have hts := ih (by omega) hr
    rw [insert_short_append hne]
    cases r with
    | nil => exact absurd rfl hr
    | cons a r =>
      rw [insert_full_cons] at hts ⊢
      exact .ext hne hp (m := n - p.length) (by omega) hts
  case full =>
    intro n a k ts hf hk ih hkn _
    rw [length_cons] at hkn
    rw [insert_full_cons]
    rcases terminated_cons_iff.mp hk with ⟨rfl, rfl⟩ | ⟨ha, hk⟩
    · refine hf.update (fun h => absurd rfl h) fun _ => .inr ⟨v, hv, ?_⟩
      rw [insert_key_nil]
    · exact hf.update (fun _ => .inr (ih (by omega) hk.ne_nil)) fun h => absurd h ha

omit [DecidableEq α] in
theorem minimal_graft (h : Minimal c) : Minimal (graft p c) := by
  cases p with
  | nil => exact h
  | cons a p => exact h

/-- The branch of a split has its two sides occupied. -/
theorem minimal_fork (hab : a ≠ b) (k p : List α) (v : β) (hc : Minimal c) (hne : c ≠ nil) :
    Minimal (fork a b k p c v) := by
  refine ⟨⟨a, b, hab, ?_, ?_⟩, ?_⟩
  · rw [update_self]
    exact graft_ne_nil k fun h => by cases h
  · rw [update_of_ne (Ne.symm hab), update_self]
    exact graft_ne_nil p hne
  · intro x
    by_cases hxa : x = a
    · subst hxa
      rw [update_self]
      exact minimal_graft trivial
    rw [update_of_ne hxa]
    by_cases hxb : x = b
    · subst hxb
      rw [update_self]
      exact minimal_graft hc
    · rw [update_of_ne hxb]
      trivial

theorem minimal_insert (h : Fits τ ok n t) (hmin : Minimal t) (hk : Terminated τ k) (v : β) :
    Minimal (insert t k v) := by
  refine Fits.along (motive := fun _ t k => Minimal t → Minimal (insert t k v))
    ?nil ?value ?leaf ?fork ?ext ?full h hk hmin
  case nil =>
    intro _ k _ _
    rw [insert_nil]
    exact minimal_graft trivial
  case value =>
    intro _ _ _ _
    trivial
  case leaf =>
    intro _ p w hp _ _ _
    rw [insert_leaf_self hp.ne_nil]
    trivial
  case fork =>
    intro _ q a r b p c hab _ hc hmin
    rw [insert_short_fork hab]
    apply minimal_graft
    apply minimal_fork hab r p v (show Minimal c from hmin)
    cases hc <;> rintro ⟨⟩
  case ext =>
    intro _ p r ts hne _ _ _ ih _ hmin
    rw [insert_short_append hne]
    exact ih hmin
  case full =>
    intro _ a k ts hf hk ih hmin
    obtain ⟨⟨x, y, hxy, hx, hy⟩, hmins⟩ := hmin
    have hslot : ∀ z, ts z ≠ nil → update ts a (insert (ts a) k v) z ≠ nil := by
      intro z hz
      by_cases hza : z = a
      · subst hza
        rw [update_self]
        exact insert_ne_nil (ts z) k v
      · rwa [update_of_ne hza]
    refine ⟨⟨x, y, hxy, hslot x hx, hslot y hy⟩, ?_⟩
    intro z
    by_cases hza : z = a
    · subst hza
      rw [update_self]
      exact ih (hmins z)
    · rw [update_of_ne hza]
      exact hmins z

end Insert

/-! ## Deletion -/

/-- A single slot is occupied. -/
def Sole (ts : α → Tree α β) (j : α) : Prop := ts j ≠ nil ∧ ∀ i, i ≠ j → ts i = nil

theorem Sole.unique {i : α} (hi : Sole ts i) (hj : Sole ts j) : i = j := by
  by_contra hij
  exact hi.1 (hj.2 i hij)

open Classical in
/-- A branch with a single occupied slot becomes a short node. -/
noncomputable def reduce (ts : α → Tree α β) : Tree α β :=
  if h : ∃ j, Sole ts j then merge [h.choose] (ts h.choose) else full ts

theorem reduce_of_sole (h : Sole ts j) : reduce ts = merge [j] (ts j) := by
  have hex : ∃ j, Sole ts j := ⟨j, h⟩
  rw [reduce, dif_pos hex, hex.choose_spec.unique h]

theorem reduce_of_not_sole (h : ∀ j, ¬ Sole ts j) : reduce ts = full ts := by
  rw [reduce, dif_neg]
  rintro ⟨j, hj⟩
  exact h j hj

section Delete

variable [DecidableEq α]

variable {k p : List α} {n : Nat}

/-- Take a key out; `none` when there is nothing to take out. -/
noncomputable def delete : Tree α β → List α → Option (Tree α β)
  | nil, _ => none
  | value _, _ => some nil
  | short p c, k =>
    if p <+: k then
      if k.length = p.length then some nil
      else (delete c (k.drop p.length)).map (merge p)
    else none
  | full _, [] => none
  | full ts, a :: k =>
    (delete (ts a) k).map fun c =>
      if c.isNil then reduce (update ts a nil) else full (update ts a c)

@[simp] theorem delete_nil (k : List α) : delete (nil : Tree α β) k = none := rfl

@[simp] theorem delete_value (v : β) (k : List α) : delete (value v : Tree α β) k = some nil := rfl

theorem delete_full_cons (ts : α → Tree α β) (a : α) (k : List α) :
    delete (full ts) (a :: k) = (delete (ts a) k).map fun c =>
      if c.isNil then reduce (update ts a nil)
      else full (update ts a c) := rfl

theorem delete_short_fork {a b : α} (hab : a ≠ b) (q k p : List α) (c : Tree α β) :
    delete (short (q ++ b :: p) c) (q ++ a :: k) = none := by
  rw [delete, if_neg (not_prefix_of_fork hab q k p)]

theorem delete_short_self (p : List α) (c : Tree α β) : delete (short p c) p = some nil := by
  rw [delete, if_pos (prefix_refl p), if_pos rfl]

theorem delete_short_append (hk : k ≠ []) (p : List α) (c : Tree α β) :
    delete (short p c) (p ++ k) = (delete c k).map (merge p) := by
  have hlen : (p ++ k).length ≠ p.length := by
    have := length_pos_iff.mpr hk
    rw [length_append]
    omega
  rw [delete, if_pos (prefix_append p k), if_neg hlen, drop_left]

theorem lookup_reduce (ts : α → Tree α β) (k : List α) :
    lookup (reduce ts) k = lookup (full ts) k := by
  by_cases h : ∃ j, Sole ts j
  · obtain ⟨j, hj⟩ := h
    rw [reduce_of_sole hj]
    cases k with
    | nil =>
      rw [lookup_merge_eq_none]
      · rfl
      · intro h
        have := h.length_le
        simp at this
    | cons x k =>
      by_cases hx : x = j
      · subst hx
        exact lookup_merge_append [x] (ts x) k
      · rw [lookup_full_cons, hj.2 x hx, lookup_merge_eq_none]
        · rfl
        · rw [cons_prefix_cons]
          exact fun h => hx h.1.symm
  · rw [reduce_of_not_sole fun j hj => h ⟨j, hj⟩]

variable {τ : α} {ok : β → Prop}

variable {t t' : Tree α β}

/-- There is nothing to take out exactly when there is no entry. -/
theorem delete_eq_none_iff (h : Fits τ ok n t) (hk : Terminated τ k) :
    delete t k = none ↔ lookup t k = none := by
  refine Fits.along (motive := fun _ t k => delete t k = none ↔ lookup t k = none)
    ?nil ?value ?leaf ?fork ?ext ?full h hk
  case nil => simp
  case value => simp
  case leaf =>
    intro _ p w _ _ _
    rw [delete_short_self, lookup_leaf, if_pos rfl]
    simp
  case fork =>
    intro _ q a r b p c hab _ _
    rw [delete_short_fork hab, lookup_short_fork hab]
    simp
  case ext =>
    intro _ p r ts _ _ _ _ ih hr
    rwa [delete_short_append hr, lookup_short_append, Option.map_eq_none_iff]
  case full =>
    intro _ a k ts _ _ ih
    rwa [delete_full_cons, lookup_full_cons, Option.map_eq_none_iff]

/-- Deletion takes out one entry and no other. -/
theorem lookup_delete (h : Fits τ ok n t) (hk : Terminated τ k) (hd : delete t k = some t')
    (k' : List α) : lookup t' k' = if k' = k then none else lookup t k' := by
  refine Fits.along (motive := fun _ t k => ∀ t' k', delete t k = some t' →
    lookup t' k' = if k' = k then none else lookup t k') ?nil ?value ?leaf ?fork ?ext ?full
    h hk t' k' hd
  case nil =>
    intro _ _ _ t' k' hd
    cases hd
  case value =>
    intro _ w _ t' k' hd
    cases hd
    cases k' <;> rfl
  case leaf =>
    intro _ p w _ _ _ t' k' hd
    rw [delete_short_self] at hd
    cases hd
    rw [lookup_leaf, lookup_nil]
    split <;> rfl
  case fork =>
    intro _ q a r b p c hab _ _ t' k' hd
    rw [delete_short_fork hab] at hd
    cases hd
  case ext =>
    intro _ p r ts _ _ _ _ ih hr t' k' hd
    rw [delete_short_append hr, Option.map_eq_some_iff] at hd
    obtain ⟨c, hc, rfl⟩ := hd
    by_cases hpk : p <+: k'
    · obtain ⟨r', rfl⟩ := hpk
      simp only [lookup_merge_append, lookup_short_append, append_right_inj]
      exact ih c r' hc
    · rw [lookup_merge_eq_none _ hpk, lookup_short_eq_none _ hpk]
      split <;> rfl
  case full =>
    intro _ a k ts _ _ ih t' k' hd
    rw [delete_full_cons, Option.map_eq_some_iff] at hd
    obtain ⟨c, hc, rfl⟩ := hd
    -- contracting the branch is invisible to a lookup
    have hlookup : lookup (if c.isNil then reduce (update ts a nil)
        else Tree.full (update ts a c)) k' = lookup (Tree.full (update ts a c)) k' := by
      by_cases hnil : c.isNil = true
      · rw [if_pos hnil, lookup_reduce, isNil_iff.mp hnil]
      · rw [if_neg hnil]
    rw [hlookup]
    cases k' with
    | nil => rfl
    | cons x k' =>
      simp only [lookup_full_cons, cons.injEq]
      by_cases hxa : x = a
      · subst hxa
        rw [update_self]
        simp only [true_and]
        exact ih c k' hc
      · rw [update_of_ne hxa, if_neg fun h => hxa h.1]

omit [DecidableEq α] in
/-- A letter before a well-formed tree, spelled in one word. -/
theorem shape_merge {c : Tree α β} (hne : p ≠ []) (hp : τ ∉ p) (hn : p.length + m ≤ n)
    (hc : Shape τ ok m c) : Shape τ ok n (merge p c) := by
  cases hc with
  | @leaf _ q w hq hqm hw =>
    refine .leaf ((terminated_append_iff hq.ne_nil).mpr ⟨hp, hq⟩) ?_ hw
    rw [length_append]
    omega
  | @ext _ m' q ts hqne hq hqm hts =>
    refine .ext (append_ne_nil_of_left_ne_nil hne q) ?_ ?_ hts
    · rw [mem_append, not_or]
      exact ⟨hp, hq⟩
    · rw [length_append]
      omega
  | @full _ m' ts hm hts hτ => exact .ext hne hp hn (.full hm hts hτ)

theorem shape_reduce (h : Shape τ ok n (Tree.full ts)) : Shape τ ok n (reduce ts) := by
  by_cases hs : ∃ j, Sole ts j
  · obtain ⟨j, hj⟩ := hs
    rw [reduce_of_sole hj]
    by_cases hjτ : j = τ
    · subst hjτ
      obtain ⟨w, hw, heq⟩ := h.valueSlot.resolve_left hj.1
      rw [heq]
      exact .leaf terminated_singleton h.pos hw
    have hslot := (h.slot hjτ).resolve_left hj.1
    have hpos := h.pos
    refine shape_merge (cons_ne_nil j []) ?_ (m := n - 1) ?_ hslot
    · rw [mem_singleton]
      exact Ne.symm hjτ
    · rw [length_singleton]
      omega
  · rwa [reduce_of_not_sole fun j hj => hs ⟨j, hj⟩]

/-- Deletion keeps trees well formed, and never empties a branch. -/
theorem fits_delete (h : Fits τ ok n t) (hk : Terminated τ k) (hd : delete t k = some t') :
    Fits τ ok n t' ∧ (t.isFull = true → t' ≠ nil) := by
  refine Fits.along (motive := fun n t k => ∀ t', delete t k = some t' →
    Fits τ ok n t' ∧ (t.isFull = true → t' ≠ nil)) ?nil ?value ?leaf ?fork ?ext ?full h hk t' hd
  case nil =>
    intro _ _ _ t' hd
    cases hd
  case value =>
    intro n w _ t' hd
    cases hd
    exact ⟨fits_nil n, by rintro ⟨⟩⟩
  case leaf =>
    intro n p w _ _ _ t' hd
    rw [delete_short_self] at hd
    cases hd
    exact ⟨fits_nil n, by rintro ⟨⟩⟩
  case fork =>
    intro _ q a r b p c hab _ _ t' hd
    rw [delete_short_fork hab] at hd
    cases hd
  case ext =>
    intro n p r ts hne hp hpn _ ih hr t' hd
    rw [delete_short_append hr, Option.map_eq_some_iff] at hd
    obtain ⟨c, hc, rfl⟩ := hd
    obtain ⟨hfit, hnil⟩ := ih c hc
    exact ⟨.inr (shape_merge hne hp (by omega) (hfit.resolve_left (hnil rfl))), by rintro ⟨⟩⟩
  case full =>
    intro n a k ts hf hk ih t' hd
    rw [delete_full_cons, Option.map_eq_some_iff] at hd
    obtain ⟨c, hc, rfl⟩ := hd
    have hslots : Shape τ ok n (Tree.full (update ts a c)) := by
      refine hf.update (fun _ => (ih c hc).1) fun haτ => .inl ?_
      subst haτ
      rcases hf.valueSlot with hτ | ⟨w, -, hτ⟩
      · rw [hτ] at hc
        cases hc
      · rw [hτ] at hc
        cases hc
        rfl
    have hres : Shape τ ok n (if c.isNil then reduce (update ts a nil)
        else Tree.full (update ts a c)) := by
      by_cases hnil : c.isNil = true
      · rw [if_pos hnil]
        rw [isNil_iff.mp hnil] at hslots
        exact shape_reduce hslots
      · rwa [if_neg hnil]
    exact ⟨.inr hres, fun _ => hres.ne_nil⟩

omit [DecidableEq α] in
theorem minimal_merge {c : Tree α β} (h : Minimal c) : Minimal (merge p c) := by
  cases c with
  | nil => exact h
  | value w => exact h
  | short q c => exact h
  | full ts => exact h

omit [DecidableEq α] in
/-- Contraction leaves no branch with fewer than two occupied slots. -/
theorem minimal_reduce (h : ∀ a, Minimal (ts a)) {b : α} (hb : ts b ≠ nil) :
    Minimal (reduce ts) := by
  by_cases hs : ∃ j, Sole ts j
  · obtain ⟨j, hj⟩ := hs
    rw [reduce_of_sole hj]
    exact minimal_merge (h j)
  rw [reduce_of_not_sole fun j hj => hs ⟨j, hj⟩]
  refine ⟨?_, h⟩
  by_contra hnone
  refine hs ⟨b, hb, ?_⟩
  intro i hi
  by_contra hne
  exact hnone ⟨b, i, Ne.symm hi, hb, hne⟩

theorem minimal_delete (h : Fits τ ok n t) (hmin : Minimal t) (hk : Terminated τ k)
    (hd : delete t k = some t') : Minimal t' := by
  refine Fits.along (motive := fun _ t k => Minimal t → ∀ t', delete t k = some t' → Minimal t')
    ?nil ?value ?leaf ?fork ?ext ?full h hk hmin t' hd
  case nil =>
    intro _ _ _ _ t' hd
    cases hd
  case value =>
    intro _ w _ _ t' hd
    cases hd
    trivial
  case leaf =>
    intro _ p w _ _ _ _ t' hd
    rw [delete_short_self] at hd
    cases hd
    trivial
  case fork =>
    intro _ q a r b p c hab _ _ _ t' hd
    rw [delete_short_fork hab] at hd
    cases hd
  case ext =>
    intro _ p r ts _ _ _ _ ih hr hmin t' hd
    rw [delete_short_append hr, Option.map_eq_some_iff] at hd
    obtain ⟨c, hc, rfl⟩ := hd
    exact minimal_merge (ih hmin c hc)
  case full =>
    intro _ a k ts _ _ ih hmin t' hd
    rw [delete_full_cons, Option.map_eq_some_iff] at hd
    obtain ⟨c, hc, rfl⟩ := hd
    obtain ⟨⟨x, y, hxy, hx, hy⟩, hmins⟩ := hmin
    have hmins' : ∀ z, Minimal (update ts a c z) := by
      intro z
      by_cases hza : z = a
      · subst hza
        rw [update_self]
        exact ih (hmins z) c hc
      · rw [update_of_ne hza]
        exact hmins z
    -- one of the two occupied slots is not the one that changed
    obtain ⟨z, hza, hz⟩ : ∃ z, z ≠ a ∧ ts z ≠ nil := by
      by_cases hxa : x = a
      · exact ⟨y, by rw [← hxa]; exact Ne.symm hxy, hy⟩
      · exact ⟨x, hxa, hx⟩
    have hz' : update ts a c z ≠ nil := by rwa [update_of_ne hza]
    by_cases hnil : c.isNil = true
    · rw [if_pos hnil]
      rw [isNil_iff.mp hnil] at hmins' hz'
      exact minimal_reduce hmins' hz'
    · rw [if_neg hnil]
      refine ⟨⟨z, a, hza, hz', ?_⟩, hmins'⟩
      rw [update_self]
      exact fun h => hnil (isNil_iff.mpr h)

end Delete

end Radix.Tree

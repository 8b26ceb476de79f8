import GoEthereum.Lib.Radix.Order
import GoEthereum.Lib.Radix.Update

/-!
# Cutting a range out of a tree

`trim` removes from a tree the entries on one side of a key, `outside` those between
two keys. Both only empty slots of branches on the way to the keys and leave the
nodes there as they are, so the result may have branches with one entry or none.
`Between` says what can become of such a tree when entries of the old one are put back:
once all are there, it is the old tree again.
-/

namespace Radix

open Radix.Tree List

/-! ## The side that is kept -/

section Keeps

variable {γ : Type} [LinearOrder γ]

/-- `x` is kept when everything on the left of `y`, or on the right of it, is removed
together with `y`. -/
def Keeps (left : Bool) (x y : γ) : Prop := if left then y < x else x < y

instance (left : Bool) (x y : γ) : Decidable (Keeps left x y) := by
  unfold Keeps
  infer_instance

theorem not_keeps_self (left : Bool) (x : γ) : ¬ Keeps left x x := by
  cases left <;> exact lt_irrefl x

end Keeps

section Words

variable {α : Type} [LinearOrder α] {left : Bool}

theorem keeps_append (q l k : List α) : Keeps left (q ++ l) (q ++ k) ↔ Keeps left l k := by
  cases left with
  | false => exact append_lt_append_iff q
  | true => exact append_lt_append_iff q

theorem keeps_cons {a b : α} (hab : a ≠ b) (l k : List α) :
    Keeps left (a :: l) (b :: k) ↔ Keeps left a b := by
  cases left with
  | false =>
    refine cons_lt_cons_iff.trans ⟨?_, .inl⟩
    rintro (h | ⟨h, -⟩)
    · exact h
    · exact absurd h hab
  | true =>
    refine cons_lt_cons_iff.trans ⟨?_, .inl⟩
    rintro (h | ⟨h, -⟩)
    · exact h
    · exact absurd h.symm hab

theorem keeps_cons_self (a : α) (l k : List α) :
    Keeps left (a :: l) (a :: k) ↔ Keeps left l k := keeps_append [a] l k

/-- Where two words part, what follows does not matter. -/
theorem keeps_fork {a b : α} (hab : a ≠ b) (q l k : List α) :
    Keeps left (q ++ a :: l) (q ++ b :: k) ↔ Keeps left a b :=
  (keeps_append q _ _).trans (keeps_cons hab l k)

end Words

namespace Tree

/-- No branch has a value. -/
def Bare {α β : Type} (τ : α) : Tree α β → Prop
  | nil => True
  | value _ => True
  | short _ c => Bare τ c
  | full ts => ts τ = nil ∧ ∀ a, Bare τ (ts a)

/-- A trie whose keys have one length has no value at a branch. -/
theorem Shape.bare {α β : Type} [DecidableEq α] {τ : α} {ok : β → Prop} {n : Nat} {t : Tree α β}
    (h : Shape τ ok n t) (hmin : Minimal t) {m : Nat}
    (hlen : ∀ k v, lookup t k = some v → k.length = m) : Bare τ t := by
  induction h generalizing m with
  | leaf => trivial
  | @ext n l k ts hne _ _ hc ih =>
    refine ih hmin (m := m - k.length) fun k' v hk' => ?_
    have hlook : lookup (short k (Tree.full ts)) (k ++ k') = some v := by
      rw [lookup_short_append, hk']
    rw [← hlen _ v hlook, length_append, Nat.add_sub_cancel_left]
  | @full n l ts hn hts hτ ih =>
    have hslot : ∀ a k v, lookup (ts a) k = some v → k.length + 1 = m :=
      fun a k v hk => hlen (a :: k) v hk
    have hbranch : ∃ a, a ≠ τ ∧ ts a ≠ nil := by
      obtain ⟨⟨a, b, hab, ha, hb⟩, -⟩ := hmin
      by_cases haτ : a = τ
      · exact ⟨b, fun hbτ => hab (haτ.trans hbτ.symm), hb⟩
      · exact ⟨a, haτ, ha⟩
    have hempty : ts τ = nil := by
      refine hτ.resolve_right ?_
      rintro ⟨w, -, hval⟩
      obtain ⟨a, haτ, ha⟩ := hbranch
      obtain ⟨k, v, hk⟩ := (hts a haτ ha).exists_entry (hmin.2 a)
      have hshort : ([] : List α).length + 1 = m := hslot τ [] w (by rw [hval]; rfl)
      have hpos := length_pos_iff.mpr ((hts a haτ ha).terminated hk).ne_nil
      have := hslot a k v hk
      rw [length_nil] at hshort
      omega
    refine ⟨hempty, fun a => ?_⟩
    by_cases ha : a ≠ τ ∧ ts a ≠ nil
    · exact ih a ha.1 ha.2 (hmin.2 a) (m := m - 1) fun k v hk => by
        have := hslot a k v hk
        omega
    have hnil : ts a = nil := by
      by_cases haτ : a = τ
      · rw [haτ, hempty]
      · exact by_contra fun hne => ha ⟨haτ, hne⟩
    rw [hnil]
    trivial

section Between

variable {α β : Type} [DecidableEq α] (τ : α) (ok : β → Prop)

/-- A tree that has the branches of another one along some paths and otherwise minimal
trees with some of its entries. -/
inductive Between : Tree α β → Tree α β → Prop where
  | part {n : Nat} {p t : Tree α β} : Fits τ ok n p → Minimal p →
      (∀ k v, lookup p k = some v → lookup t k = some v) → Between p t
  | short {q : List α} {p t : Tree α β} : q ≠ [] → τ ∉ q → Between p t →
      Between (short q p) (short q t)
  | full {ps ts : α → Tree α β} : ts τ = nil → (∀ a, Between (ps a) (ts a)) →
      Between (full ps) (full ts)

variable {τ ok}

theorem between_nil (t : Tree α β) : Between τ ok nil t :=
  .part (fits_nil 0) trivial fun k v h => by cases h

theorem between_self {n : Nat} {t : Tree α β} (h : Fits τ ok n t) (hmin : Minimal t) :
    Between τ ok t t :=
  .part h hmin fun _ _ => id

/-- Putting an entry back. -/
theorem Between.insert {p t : Tree α β} (h : Between τ ok p t) {k : List α}
    (hk : Terminated τ k) {v : β} (hv : ok v) (hkv : lookup t k = some v) :
    Between τ ok (insert p k v) t := by
  induction h generalizing k with
  | @part n p t hp hmin hsub =>
    have hp' : Fits τ ok (max n k.length) p := hp.mono (le_max_left _ _)
    refine .part (.inr (shape_insert hp' hk (le_max_right _ _) hv)) (minimal_insert hp hmin hk v) fun k' v' hk' => ?_
    rw [lookup_insert hp hk] at hk'
    by_cases heq : k' = k
    · rw [if_pos heq] at hk'
      rw [heq, hkv, hk']
    · rw [if_neg heq] at hk'
      exact hsub k' v' hk'
  | @short q p t hq hτ _ ih =>
    obtain ⟨k', rfl⟩ := prefix_of_lookup_short hkv
    rw [lookup_short_append] at hkv
    rw [insert_short_append hq]
    exact .short hq hτ (ih (hk.rest hτ) hkv)
  | @full ps ts hts hps ih =>
    cases k with
    | nil => exact absurd rfl hk.ne_nil
    | cons a k =>
      rw [lookup_full_cons] at hkv
      rcases terminated_cons_iff.mp hk with ⟨rfl, -⟩ | ⟨-, hk'⟩
      · rw [hts] at hkv
        cases hkv
      rw [insert_full_cons]
      refine .full hts fun b => ?_
      by_cases hb : b = a
      · subst hb
        rw [Function.update_self]
        exact ih b hk' hkv
      · rw [Function.update_of_ne hb]
        exact hps b

/-- With all entries back it is the old tree. -/
theorem Between.eq {p t : Tree α β} (h : Between τ ok p t) {n m : Nat} (hp : Fits τ ok n p)
    (ht : Fits τ ok m t) (hmin : Minimal t) (hsame : ∀ k, lookup p k = lookup t k) : p = t := by
  induction h generalizing n m with
  | @part _ p t _ hpmin _ =>
    exact hp.eq_of_lookup hpmin ht hmin fun k _ => hsame k
  | @short q p t hq hτ _ ih =>
    have hchild : ∀ {l : Nat} {c : Tree α β}, Fits τ ok l (Tree.short q c) → Fits τ ok l c := by
      intro l c hc
      rcases hc with hc | hc
      · cases hc
      · cases hc with
        | leaf hk => exact absurd hk.mem hτ
        | ext _ _ hlen hts => exact .inr (hts.mono (by omega))
    rw [ih (hchild hp) (hchild ht) hmin fun k => ?_]
    have := hsame (q ++ k)
    rwa [lookup_short_append, lookup_short_append] at this
  | @full ps ts hts _ ih =>
    have hp' : Shape τ ok n (Tree.full ps) := hp.resolve_left fun h => by cases h
    have ht' : Shape τ ok m (Tree.full ts) := ht.resolve_left fun h => by cases h
    congr 1
    funext a
    by_cases ha : a = τ
    · subst ha
      rw [hts]
      rcases hp'.valueSlot with hnil | ⟨v, -, hv⟩
      · exact hnil
      · have := hsame [a]
        rw [lookup_full_cons, lookup_full_cons, hv, hts] at this
        cases this
    · exact ih a (hp'.slot ha) (ht'.slot ha) (hmin.2 a) fun k => hsame (a :: k)

end Between

/-! ## Entries one after the other -/

section InsertAll

variable {α β : Type} [DecidableEq α] {τ : α} {ok : β → Prop}

variable {es : List (List α × β)}

/-- A tree with some entries put into it. -/
def insertAll (t : Tree α β) (es : List (List α × β)) : Tree α β :=
  es.foldl (fun t e => insert t e.1 e.2) t

theorem insertAll_cons (t : Tree α β) (e : List α × β) (es : List (List α × β)) :
    insertAll t (e :: es) = insertAll (insert t e.1 e.2) es := rfl

theorem fits_insertAll {n : Nat} {t : Tree α β} (h : Fits τ ok n t)
    (hes : ∀ e ∈ es, Terminated τ e.1 ∧ e.1.length ≤ n ∧ ok e.2) :
    Fits τ ok n (insertAll t es) := by
  induction es generalizing t with
  | nil => exact h
  | cons e es ih =>
    obtain ⟨⟨hk, hlen, hv⟩, hes⟩ := forall_mem_cons.mp hes
    exact ih (.inr (shape_insert h hk hlen hv)) hes

theorem lookup_insertAll {n : Nat} {t : Tree α β} (h : Fits τ ok n t)
    (hes : ∀ e ∈ es, Terminated τ e.1 ∧ e.1.length ≤ n ∧ ok e.2)
    (hnodup : es.Pairwise fun e e' => e.1 ≠ e'.1) (k : List α) (v : β) :
    lookup (insertAll t es) k = some v ↔
      (k, v) ∈ es ∨ (lookup t k = some v ∧ ∀ e ∈ es, e.1 ≠ k) := by
  induction es generalizing t with
  | nil => simp [insertAll]
  | cons e es ih =>
    obtain ⟨⟨hek, hlen, hv⟩, hes⟩ := forall_mem_cons.mp hes
    obtain ⟨hne, hnodup⟩ := pairwise_cons.mp hnodup
    rw [insertAll_cons, ih (.inr (shape_insert h hek hlen hv)) hes hnodup,
      lookup_insert h hek, mem_cons, forall_mem_cons]
    by_cases heq : k = e.1
    · subst heq
      rw [if_pos rfl, Option.some.injEq]
      constructor
      · rintro (hmem | ⟨rfl, -⟩)
        · exact absurd rfl (hne (e.1, v) hmem)
        · exact .inl (.inl rfl)
      · rintro ((hmem | hmem) | ⟨-, hne', -⟩)
        · right
          refine ⟨?_, fun e' he' heq => hne e' he' heq.symm⟩
          rw [← hmem]
        · exact absurd rfl (hne (e.1, v) hmem)
        · exact absurd rfl hne'
    · rw [if_neg heq]
      constructor
      · rintro (hmem | ⟨hlook, hne'⟩)
        · exact .inl (.inr hmem)
        · exact .inr ⟨hlook, fun h => heq h.symm, hne'⟩
      · rintro ((hmem | hmem) | ⟨hlook, -, hne'⟩)
        · exact absurd (by rw [← hmem]) heq
        · exact .inl hmem
        · exact .inr ⟨hlook, hne'⟩

theorem Between.insertAll {p t : Tree α β} (h : Between τ ok p t)
    (hes : ∀ e ∈ es, Terminated τ e.1 ∧ ok e.2 ∧ lookup t e.1 = some e.2) :
    Between τ ok (insertAll p es) t := by
  induction es generalizing p with
  | nil => exact h
  | cons e es ih =>
    obtain ⟨⟨hk, hv, hlook⟩, hes⟩ := forall_mem_cons.mp hes
    exact ih (h.insert hk hv hlook) hes

end InsertAll

/-! ## Trees with some of the entries -/

section Cut

variable {α β : Type} [DecidableEq α] (τ : α) (ok : β → Prop)

/-- `t'` is what a cut leaves of `t`: the entries whose keys are kept. -/
structure Cut (n : Nat) (t : Tree α β) (keep : List α → Prop) (t' : Tree α β) : Prop where
  fits : Fits τ ok n t'
  lookup : ∀ k v, lookup t' k = some v ↔ lookup t k = some v ∧ keep k
  between : Between τ ok t' t

variable {τ ok} {n : Nat} {t t' : Tree α β} {keep keep' : List α → Prop}

theorem Cut.congr (h : Cut τ ok n t keep t')
    (hkeep : ∀ k v, Tree.lookup t k = some v → (keep k ↔ keep' k)) : Cut τ ok n t keep' t' where
  fits := h.fits
  lookup k v := by
    rw [h.lookup]
    exact and_congr_right (hkeep k v)
  between := h.between

theorem cut_none (n : Nat) (h : ∀ k v, lookup t k = some v → ¬ keep k) : Cut τ ok n t keep nil where
  fits := fits_nil n
  lookup k v := by
    refine iff_of_false (by rintro ⟨⟩) ?_
    rintro ⟨hlook, hk⟩
    exact h k v hlook hk
  between := between_nil t

theorem cut_all (hfits : Fits τ ok n t) (hmin : Minimal t)
    (h : ∀ k v, lookup t k = some v → keep k) : Cut τ ok n t keep t where
  fits := hfits
  lookup k v := ⟨fun hlook => ⟨hlook, h k v hlook⟩, fun hlook => hlook.1⟩
  between := between_self hfits hmin

theorem Cut.short {m : Nat} {q : List α} (hne : q ≠ []) (hq : τ ∉ q) (hlen : q.length + m ≤ n)
    {ts us : α → Tree α β} (h : Cut τ ok m (Tree.full ts) keep (Tree.full us))
    (hkeep : ∀ k, keep' (q ++ k) ↔ keep k) :
    Cut τ ok n (short q (Tree.full ts)) keep' (short q (Tree.full us)) where
  fits := Or.inr (.ext hne hq hlen (h.fits.resolve_left fun h => by cases h))
  lookup k v := by
    by_cases hpre : q <+: k
    · obtain ⟨k', rfl⟩ := hpre
      rw [lookup_short_append, lookup_short_append, h.lookup, hkeep]
    · rw [lookup_short_eq_none _ hpre, lookup_short_eq_none _ hpre]
      exact iff_of_false (by rintro ⟨⟩) fun h => by cases h.1
  between := .short hne hq h.between

theorem Cut.full {m : Nat} (hlen : m + 1 ≤ n) {ts us : α → Tree α β} (hτ : ts τ = nil)
    (hτ' : us τ = nil) (keeps : α → List α → Prop)
    (h : ∀ a, a ≠ τ → Cut τ ok m (ts a) (keeps a) (us a))
    (hkeep : ∀ a k, keep (a :: k) ↔ keeps a k) :
    Cut τ ok n (Tree.full ts) keep (Tree.full us) where
  fits := Or.inr (.full hlen (fun a ha hne => (h a ha).fits.resolve_left hne) (.inl hτ'))
  lookup k v := by
    cases k with
    | nil => exact iff_of_false (by rintro ⟨⟩) fun h => by cases h.1
    | cons a k =>
      rw [lookup_full_cons, lookup_full_cons, hkeep]
      by_cases ha : a = τ
      · subst ha
        rw [hτ, hτ']
        exact iff_of_false (by rintro ⟨⟩) fun h => by cases h.1
      · exact (h a ha).lookup k v
  between := by
    refine .full hτ fun a => ?_
    by_cases ha : a = τ
    · subst ha
      rw [hτ']
      exact between_nil _
    · exact (h a ha).between

end Cut

/-! ## One side of a key -/

section Trim

variable {α β : Type} [LinearOrder α] {τ : α} {ok : β → Prop}

/-- The tree without a key and the keys on the left of it, or on the right of it. -/
def trim (left : Bool) : Tree α β → List α → Tree α β
  | nil, _ => nil
  | value _, _ => nil
  | short q c, k =>
    if q <+: k then
      if c.isNode then short q (trim left c (k.drop q.length)) else nil
    else if Keeps left q k then short q c
    else nil
  | full ts, [] => full ts
  | full ts, a :: k =>
    full fun i => if i = a then trim left (ts i) k else if Keeps left i a then ts i else nil

variable {left : Bool}

theorem trim_short_append {c : Tree α β} (hc : c.isNode = true) (q k : List α) :
    trim left (short q c) (q ++ k) = short q (trim left c k) := by
  rw [trim, if_pos (prefix_append q k), if_pos hc, drop_left]

theorem trim_leaf_self (q : List α) (v : β) : trim left (short q (value v)) q = nil := by
  rw [trim, if_pos prefix_rfl]
  rfl

theorem trim_short_of_not_isPrefix {q k : List α} (h : ¬ q <+: k) (c : Tree α β) :
    trim left (short q c) k = if Keeps left q k then short q c else nil := by
  rw [trim, if_neg h]

theorem trim_full_cons (ts : α → Tree α β) (a : α) (k : List α) :
    trim left (full ts) (a :: k) = full fun i =>
      if i = a then trim left (ts i) k else if Keeps left i a then ts i else nil := rfl

theorem isFull_trim (left : Bool) (ts : α → Tree α β) (k : List α) :
    ∃ us, trim left (full ts) k = full us := by
  cases k with
  | nil => exact ⟨ts, rfl⟩
  | cons a k => exact ⟨_, rfl⟩

/-- A word that does not begin a key has everything that starts with it on one side. -/
theorem keeps_iff_of_not_isPrefix (left : Bool) {x q : List α} (hx : Terminated τ x) (hq : Word τ q)
    (h : ¬ q <+: x) (s : List α) : Keeps left (q ++ s) x ↔ Keeps left q x := by
  rcases hx.cases hq with ⟨k', rfl⟩ | ⟨p, b, x', a, q', hba, rfl, rfl⟩
  · exact absurd (prefix_append q k') h
  · rw [append_assoc, cons_append, keeps_fork (Ne.symm hba), keeps_fork (Ne.symm hba)]

/-- What `trim` leaves are the entries on the other side of the key. -/
theorem cut_trim {n : Nat} {t : Tree α β} (h : Fits τ ok n t) (hbare : Bare τ t)
    (hmin : Minimal t) {k : List α} (hk : Terminated τ k) :
    Cut τ ok n t (fun k' => Keeps left k' k) (trim left t k) := by
  -- a short node whose word does not begin the key
  have hside : ∀ {n : Nat} {q : List α} {c : Tree α β} {k : List α}, Terminated τ k →
      Shape τ ok n (short q c) → Minimal c → ¬ q <+: k →
      Cut τ ok n (short q c) (fun k' => Keeps left k' k) (trim left (short q c) k) := by
    intro n q c k hk hshape hmin hpre
    have hiff : ∀ k' v, lookup (short q c) k' = some v → (Keeps left k' k ↔ Keeps left q k) := by
      intro k' v hlook
      obtain ⟨s, rfl⟩ := prefix_of_lookup_short hlook
      exact keeps_iff_of_not_isPrefix left hk hshape.word.1 hpre s
    rw [trim_short_of_not_isPrefix hpre]
    by_cases hkeep : Keeps left q k
    · rw [if_pos hkeep]
      exact cut_all (.inr hshape) hmin fun k' v hlook => (hiff k' v hlook).mpr hkeep
    · rw [if_neg hkeep]
      exact cut_none n fun k' v hlook hk' => hkeep ((hiff k' v hlook).mp hk')
  rcases h with rfl | h
  · exact cut_none n fun k' v hlook => by cases hlook
  induction h generalizing k with
  | @leaf n q v hq hlen hv =>
    by_cases hpre : q <+: k
    · obtain ⟨r, rfl⟩ := hpre
      obtain rfl := hq.eq_of_append hk
      rw [append_nil, trim_leaf_self]
      refine cut_none n fun k' v' hlook => ?_
      rw [(lookup_leaf_eq_some hlook).1]
      exact not_keeps_self left q
    · exact hside hk (.leaf hq hlen hv) hmin hpre
  | @ext n m q ts hne hq hlen hts ih =>
    by_cases hpre : q <+: k
    · obtain ⟨r, rfl⟩ := hpre
      have hchild := ih hbare hmin (hk.rest hq)
      obtain ⟨us, hus⟩ := isFull_trim left ts r
      rw [trim_short_append rfl, hus]
      rw [hus] at hchild
      exact hchild.short hne hq hlen fun k' => keeps_append q k' r
    · exact hside hk (.ext hne hq hlen hts) hmin hpre
  | @full n m ts hlen hts hτ ih =>
    cases k with
    | nil => exact absurd rfl hk.ne_nil
    | cons a k =>
      have hus : (if τ = a then trim left (ts τ) k else if Keeps left τ a then ts τ else nil) =
          nil := by
        rw [hbare.1]
        split
        · rfl
        · exact ite_self nil
      rw [trim_full_cons]
      refine Cut.full hlen hbare.1 hus (fun i k' => Keeps left (i :: k') (a :: k))
        (fun i hi => ?_) fun i k' => Iff.rfl
      by_cases hia : i = a
      · subst hia
        rw [if_pos rfl]
        by_cases hnil : ts i = nil
        · rw [hnil]
          exact cut_none m fun k' v hlook => by cases hlook
        · exact (ih i hi hnil (hbare.2 i) (hmin.2 i) (hk.tail hi)).congr
            fun k' v _ => (keeps_cons_self i k' k).symm
      · rw [if_neg hia]
        by_cases hkeep : Keeps left i a
        · rw [if_pos hkeep]
          exact cut_all (fits_of_ne_nil (hts i hi)) (hmin.2 i) fun k' v _ => (keeps_cons hia k' k).mpr hkeep
        · rw [if_neg hkeep]
          exact cut_none m fun k' v _ hk' => hkeep ((keeps_cons hia k' k).mp hk')

end Trim

/-! ## Between two keys -/

section Outside

variable {α β : Type} [LinearOrder α] {τ : α} {ok : β → Prop}

variable {l q r : List α}

/-- The tree without the keys from `l` to `r`. -/
def outside : Tree α β → List α → List α → Tree α β
  | short q c, l, r =>
    if q <+: l ∧ q <+: r then short q (outside c (l.drop q.length) (r.drop q.length))
    else if q <+: l then trim false (short q c) l
    else if q <+: r then trim true (short q c) r
    else if l < q ∧ q < r then nil
    else short q c
  | full ts, a :: l, b :: r =>
    full fun i =>
      if a = b then if i = a then outside (ts i) l r else ts i
      else if i = a then trim false (ts i) l
      else if i = b then trim true (ts i) r
      else if a < i ∧ i < b then nil
      else ts i
  | t, _, _ => t

/-- The keys that stay. -/
def Out (l r k : List α) : Prop := k < l ∨ r < k

theorem out_append (q l r k : List α) : Out (q ++ l) (q ++ r) (q ++ k) ↔ Out l r k := by
  rw [Out, append_lt_append_iff, append_lt_append_iff, Out]

theorem out_cons (a : α) (l r k : List α) : Out (a :: l) (a :: r) (a :: k) ↔ Out l r k :=
  out_append [a] l r k

theorem lt_or_gt_of_not_isPrefix {x : List α} (hx : Terminated τ x) (hq : Word τ q) (h : ¬ q <+: x)
    : q < x ∨ x < q := by
  rcases hx.cases hq with ⟨k', rfl⟩ | ⟨p, b, x', a, q', hba, rfl, rfl⟩
  · exact absurd (prefix_append q k') h
  · rcases lt_or_gt_of_ne hba with hlt | hlt
    · exact .inr (lt_of_fork hlt p x' q')
    · exact .inl (lt_of_fork hlt p q' x')

/-- How two keys lie to the word of a short node. -/
inductive Lies (q l r : List α) : Prop where
  | below : q <+: l → q <+: r → Lies q l r
  | right : q <+: l → ¬ q <+: r → q < r → Lies q l r
  | left : ¬ q <+: l → q <+: r → l < q → Lies q l r
  | inside : ¬ q <+: l → ¬ q <+: r → l < q → q < r → Lies q l r
  | out : ¬ q <+: l → ¬ q <+: r → (q < l ∨ r < q) → Lies q l r

theorem lies_cases (hq : Word τ q) (hl : Terminated τ l) (hr : Terminated τ r) (hlr : l < r) :
    Lies q l r := by
  by_cases hql : q <+: l
  · by_cases hqr : q <+: r
    · exact .below hql hqr
    · obtain ⟨l', rfl⟩ := hql
      exact .right (prefix_append q l') hqr
        ((keeps_iff_of_not_isPrefix false hr hq hqr l').mp hlr)
  · by_cases hqr : q <+: r
    · obtain ⟨r', rfl⟩ := hqr
      exact .left hql (prefix_append q r')
        ((keeps_iff_of_not_isPrefix true hl hq hql r').mp hlr)
    · rcases lt_or_gt_of_not_isPrefix hl hq hql with h | h
      · exact .out hql hqr (.inl h)
      · rcases lt_or_gt_of_not_isPrefix hr hq hqr with h' | h'
        · exact .inside hql hqr h h'
        · exact .out hql hqr (.inr h')

theorem outside_short_append (q : List α) (c : Tree α β) (l r : List α) :
    outside (short q c) (q ++ l) (q ++ r) = short q (outside c l r) := by
  rw [outside, if_pos ⟨prefix_append q l, prefix_append q r⟩, drop_left, drop_left]

theorem outside_short_right (c : Tree α β) (hl : q <+: l) (hr : ¬ q <+: r) :
    outside (short q c) l r = trim false (short q c) l := by
  rw [outside, if_neg fun h => hr h.2, if_pos hl]

theorem outside_short_left (c : Tree α β) (hl : ¬ q <+: l) (hr : q <+: r) :
    outside (short q c) l r = trim true (short q c) r := by
  rw [outside, if_neg fun h => hl h.1, if_neg hl, if_pos hr]

theorem outside_short_inside (c : Tree α β) (hl : ¬ q <+: l) (hr : ¬ q <+: r) (hlq : l < q)
    (hqr : q < r) : outside (short q c) l r = nil := by
  rw [outside, if_neg fun h => hl h.1, if_neg hl, if_neg hr, if_pos ⟨hlq, hqr⟩]

theorem outside_short_out (c : Tree α β) (hl : ¬ q <+: l) (hr : ¬ q <+: r) (h : q < l ∨ r < q) :
    outside (short q c) l r = short q c := by
  rw [outside, if_neg fun h => hl h.1, if_neg hl, if_neg hr, if_neg]
  rintro ⟨hlq, hqr⟩
  rcases h with h | h
  · exact lt_asymm h hlq
  · exact lt_asymm h hqr

theorem outside_full_same (ts : α → Tree α β) (a : α) (l r : List α) :
    outside (full ts) (a :: l) (a :: r) =
      full fun i => if i = a then outside (ts i) l r else ts i := by
  rw [outside]
  simp only [if_true]

theorem outside_full_fork (ts : α → Tree α β) {a b : α} (hab : a ≠ b) (l r : List α) :
    outside (full ts) (a :: l) (b :: r) = full fun i =>
      if i = a then trim false (ts i) l
      else if i = b then trim true (ts i) r
      else if a < i ∧ i < b then nil
      else ts i := by
  rw [outside]
  simp only [if_neg hab]

theorem isFull_outside (ts : α → Tree α β) (l r : List α) :
    ∃ us, outside (full ts) l r = full us := by
  cases l with
  | nil => exact ⟨ts, rfl⟩
  | cons a l =>
    cases r with
    | nil => exact ⟨ts, rfl⟩
    | cons b r => exact ⟨_, rfl⟩

/-- The rests of two keys after a letter they share. -/
theorem Terminated.rests {a : α} (hl : Terminated τ (a :: l)) (hr : Terminated τ (a :: r))
    (hlr : a :: l < a :: r) : a ≠ τ ∧ Terminated τ l ∧ Terminated τ r ∧ l < r := by
  have hlt : l < r := (append_lt_append_iff [a]).mp hlr
  rcases terminated_cons_iff.mp hl with ⟨rfl, rfl⟩ | ⟨ha, hl'⟩
  · rw [hr.last] at hlt
    exact absurd hlt (not_lt_nil [])
  · exact ⟨ha, hl', hr.tail ha, hlt⟩

/-- A short node of which at most one key goes on below it. -/
theorem cut_outside_short {n : Nat} {c : Tree α β} (hl : Terminated τ l) (hr : Terminated τ r)
    (hlr : l < r) (h : Shape τ ok n (short q c)) (hbare : Bare τ c) (hmin : Minimal c)
    (hboth : ¬ (q <+: l ∧ q <+: r)) :
    Cut τ ok n (short q c) (Out l r) (outside (short q c) l r) := by
  have hq := h.word.1
  have hentry : ∀ {P : List α → Prop}, (∀ s, P (q ++ s)) →
      ∀ k v, lookup (short q c) k = some v → P k := by
    intro P hP k v hlook
    obtain ⟨s, rfl⟩ := prefix_of_lookup_short hlook
    exact hP s
  cases lies_cases hq hl hr hlr with
  | below hql hqr => exact absurd ⟨hql, hqr⟩ hboth
  | right hql hqr hlt =>
    rw [outside_short_right c hql hqr]
    refine (cut_trim (.inr h) hbare hmin hl).congr (hentry fun s => ?_)
    have hs : q ++ s < r := (keeps_iff_of_not_isPrefix false hr hq hqr s).mpr hlt
    exact ⟨.inl, fun hor => hor.resolve_right (lt_asymm hs)⟩
  | left hql hqr hlt =>
    rw [outside_short_left c hql hqr]
    refine (cut_trim (.inr h) hbare hmin hr).congr (hentry fun s => ?_)
    have hs : l < q ++ s := (keeps_iff_of_not_isPrefix true hl hq hql s).mpr hlt
    exact ⟨.inr, fun hor => hor.resolve_left (lt_asymm hs)⟩
  | inside hql hqr hlt hlt' =>
    rw [outside_short_inside c hql hqr hlt hlt']
    refine cut_none n (hentry fun s => ?_)
    have hs : l < q ++ s := (keeps_iff_of_not_isPrefix true hl hq hql s).mpr hlt
    have hs' : q ++ s < r := (keeps_iff_of_not_isPrefix false hr hq hqr s).mpr hlt'
    rintro (hout | hout)
    · exact lt_asymm hs hout
    · exact lt_asymm hs' hout
  | out hql hqr hout =>
    rw [outside_short_out c hql hqr hout]
    refine cut_all (.inr h) hmin (hentry fun s => ?_)
    refine hout.imp (fun hlt => ?_) fun hlt => ?_
    · exact (keeps_iff_of_not_isPrefix false hl hq hql s).mpr hlt
    · exact (keeps_iff_of_not_isPrefix true hr hq hqr s).mpr hlt

/-- What `outside` leaves are the entries before `l` and after `r`. -/
theorem cut_outside {n : Nat} {t : Tree α β} (h : Fits τ ok n t) (hbare : Bare τ t)
    (hmin : Minimal t) (hl : Terminated τ l) (hr : Terminated τ r) (hlr : l < r) :
    Cut τ ok n t (Out l r) (outside t l r) := by
  rcases h with rfl | h
  · exact cut_none n fun k' v hlook => by cases hlook
  induction h generalizing l r with
  | @leaf n q v hq hlen hv =>
    refine cut_outside_short hl hr hlr (.leaf hq hlen hv) hbare hmin ?_
    rintro ⟨⟨l', rfl⟩, ⟨r', rfl⟩⟩
    rw [hq.eq_of_append hl, hq.eq_of_append hr] at hlr
    exact lt_irrefl _ hlr
  | @ext n m q ts hne hq hlen hts ih =>
    by_cases hboth : q <+: l ∧ q <+: r
    · obtain ⟨⟨l', rfl⟩, ⟨r', rfl⟩⟩ := hboth
      have hchild := ih hbare hmin (hl.rest hq) (hr.rest hq) ((append_lt_append_iff q).mp hlr)
      obtain ⟨us, hus⟩ := isFull_outside ts l' r'
      rw [outside_short_append, hus]
      rw [hus] at hchild
      exact hchild.short hne hq hlen fun k => out_append q l' r' k
    · exact cut_outside_short hl hr hlr (.ext hne hq hlen hts) hbare hmin hboth
  | @full n m ts hlen hts hτ ih =>
    have hfits : ∀ i, i ≠ τ → Fits τ ok m (ts i) := fun i hi => fits_of_ne_nil (hts i hi)
    cases l with
    | nil => exact absurd rfl hl.ne_nil
    | cons a l =>
    cases r with
    | nil => exact absurd rfl hr.ne_nil
    | cons b r =>
    by_cases hab : a = b
    · subst hab
      obtain ⟨ha, hl', hr', hlr'⟩ := Terminated.rests hl hr hlr
      rw [outside_full_same]
      refine Cut.full hlen hbare.1 ?_ (fun i k => Out (a :: l) (a :: r) (i :: k))
        (fun i hi => ?_) fun i k => Iff.rfl
      · rw [if_neg (Ne.symm ha)]
        exact hbare.1
      · by_cases hia : i = a
        · subst hia
          rw [if_pos rfl]
          by_cases hnil : ts i = nil
          · rw [hnil]
            exact cut_none m fun k' v hlook => by cases hlook
          · exact (ih i hi hnil (hbare.2 i) (hmin.2 i) hl' hr' hlr').congr
              fun k v _ => (out_cons i l r k).symm
        · rw [if_neg hia]
          refine cut_all (hfits i hi) (hmin.2 i) fun k v _ => ?_
          rcases lt_or_gt_of_ne hia with hlt | hlt
          · exact .inl (cons_lt_cons_iff.mpr (.inl hlt))
          · exact .inr (cons_lt_cons_iff.mpr (.inl hlt))
    · have hlt : a < b := by
        rcases cons_lt_cons_iff.mp hlr with h | ⟨h, -⟩
        · exact h
        · exact absurd h hab
      rw [outside_full_fork ts hab]
      refine Cut.full hlen hbare.1 ?_ (fun i k => Out (a :: l) (b :: r) (i :: k))
        (fun i hi => ?_) fun i k => Iff.rfl
      · rw [hbare.1]
        split
        · rfl
        · split
          · rfl
          · exact ite_self nil
      · have hcons : ∀ {x y : α} {k k' : List α}, x < y → x :: k < y :: k' :=
          fun h => cons_lt_cons_iff.mpr (.inl h)
        by_cases hia : i = a
        · subst hia
          rw [if_pos rfl]
          refine (cut_trim (hfits i hi) (hbare.2 i) (hmin.2 i) (hl.tail hi)).congr fun k v _ => ?_
          constructor
          · exact fun h => Or.inl ((append_lt_append_iff [i]).mpr h)
          · rintro (h | h)
            · exact (append_lt_append_iff [i]).mp h
            · exact absurd h (lt_asymm (hcons hlt))
        · rw [if_neg hia]
          by_cases hib : i = b
          · subst hib
            rw [if_pos rfl]
            refine (cut_trim (hfits i hi) (hbare.2 i) (hmin.2 i) (hr.tail hi)).congr fun k v _ => ?_
            constructor
            · exact fun h => Or.inr ((append_lt_append_iff [i]).mpr h)
            · rintro (h | h)
              · exact absurd h (lt_asymm (hcons hlt))
              · exact (append_lt_append_iff [i]).mp h
          · rw [if_neg hib]
            by_cases hin : a < i ∧ i < b
            · rw [if_pos hin]
              refine cut_none m fun k v _ => ?_
              rintro (h | h)
              · exact lt_asymm h (hcons hin.1)
              · exact lt_asymm h (hcons hin.2)
            · rw [if_neg hin]
              refine cut_all (hfits i hi) (hmin.2 i) fun k v _ => ?_
              rcases lt_or_gt_of_ne hia with h | h
              · exact .inl (hcons h)
              · refine .inr (hcons ?_)
                exact lt_of_le_of_ne (not_lt.mp fun h' => hin ⟨h, h'⟩) (Ne.symm hib)

end Outside

end Tree

end Radix

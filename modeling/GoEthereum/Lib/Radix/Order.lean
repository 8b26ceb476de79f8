import GoEthereum.Lib.Radix.Tree

/-!
# The order of words

Words over an ordered alphabet compare lexicographically. Two words of which neither
starts with the other part at a letter, and the letters there decide; every word that
starts with the one then lies on the same side of the other.
-/

namespace Radix

open List

variable {α : Type} [LinearOrder α]

theorem append_lt_append_iff (q : List α) {l k : List α} : q ++ l < q ++ k ↔ l < k := by
  induction q with
  | nil => rfl
  | cons a q ih => simp [cons_lt_cons_iff, ih]

theorem lt_of_fork {a b : α} (hab : a < b) (q l k : List α) : q ++ a :: l < q ++ b :: k := by
  rw [append_lt_append_iff, cons_lt_cons_iff]
  exact .inl hab

/-- A word is not greater than one that starts with it. -/
theorem not_lt_of_isPrefix {l k : List α} (h : l <+: k) : ¬ k < l := by
  obtain ⟨r, rfl⟩ := h
  intro hlt
  have hlt' : l ++ r < l ++ [] := by rwa [append_nil]
  exact not_lt_nil r ((append_lt_append_iff l).mp hlt')

/-- The greater of two words does not start with it: they part. -/
theorem fork_of_lt {l k : List α} (h : l < k) (hp : ¬ l <+: k) :
    ∃ q a l' b k', a < b ∧ l = q ++ a :: l' ∧ k = q ++ b :: k' := by
  rcases prefix_or_fork k l with ⟨k', rfl⟩ | ⟨l', -, rfl⟩ | ⟨q, b, k', a, l', hba, rfl, rfl⟩
  · exact absurd (prefix_append l k') hp
  · exact absurd h (not_lt_of_isPrefix (prefix_append k l'))
  · refine ⟨q, a, l', b, k', ?_, rfl, rfl⟩
    rw [append_lt_append_iff, cons_lt_cons_iff] at h
    rcases h with hab | ⟨hab, -⟩
    · exact hab
    · exact absurd hab.symm hba

/-- The lesser of two words, when they part. -/
def Before (l k : List α) : Prop := l < k ∧ ¬ l <+: k

theorem Before.trans {l k m : List α} (h : Before l k) (h' : Before k m) : Before l m := by
  refine ⟨h.1.trans h'.1, ?_⟩
  rintro ⟨s, rfl⟩
  obtain ⟨q, a, l', b, k', hab, rfl, rfl⟩ := fork_of_lt h.1 h.2
  have hlt : q ++ a :: l' ++ s < q ++ b :: k' := by
    rw [append_assoc, cons_append]
    exact lt_of_fork hab q (l' ++ s) k'
  exact lt_asymm h'.1 hlt

/-- Words that part still part when they go on. -/
theorem Before.append {l k : List α} (h : Before l k) (s s' : List α) : l ++ s < k ++ s' := by
  obtain ⟨q, a, l', b, k', hab, rfl, rfl⟩ := fork_of_lt h.1 h.2
  rw [append_assoc, append_assoc, cons_append, cons_append]
  exact lt_of_fork hab q (l' ++ s) (k' ++ s')

end Radix

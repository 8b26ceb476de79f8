import Mathlib

/-!
# Maps and binary search

A Go map is a finite map. Its iteration order is not specified, so a loop over one is
given the order it takes, a list that enumerates the keys. `sort.Search` is the binary
search of package `sort`.
-/

namespace GoEthereum

/-- A Go map. -/
abbrev Map (α β : Type) : Type := Finmap fun _ : α => β

namespace Map

variable {α β : Type} [DecidableEq α]

theorem lookup_insert_ite (m : Map α β) (k k' : α) (v : β) :
    (m.insert k v).lookup k' = if k' = k then some v else m.lookup k' := by
  by_cases h : k' = k
  · subst h
    rw [if_pos rfl, Finmap.lookup_insert]
  · rw [if_neg h, Finmap.lookup_insert_of_ne m h]

theorem lookup_erase_ite (m : Map α β) (k k' : α) :
    (m.erase k).lookup k' = if k' = k then none else m.lookup k' := by
  by_cases h : k' = k
  · subst h
    rw [if_pos rfl, Finmap.lookup_erase]
  · rw [if_neg h, Finmap.lookup_erase_ne h]

theorem insert_of_lookup {m : Map α β} {k : α} {v : β} (h : m.lookup k = some v) :
    m.insert k v = m := by
  apply Finmap.ext_lookup
  intro k'
  rw [lookup_insert_ite]
  split
  · rename_i hk
    rw [hk, h]
  · rfl

theorem erase_insert_of_lookup {m : Map α β} {k : α} (h : m.lookup k = none) (v : β) :
    (m.insert k v).erase k = m := by
  apply Finmap.ext_lookup
  intro k'
  rw [lookup_erase_ite, lookup_insert_ite]
  split
  · rename_i hk
    rw [hk, h]
  · rfl

end Map

/-! ## Binary search -/

namespace Search

/-- The loop of `sort.Search` between `i` and `j`. -/
def loop (f : Nat → Bool) : Nat → Nat → Nat → Nat
  | 0, i, _ => i
  | fuel + 1, i, j =>
    if i < j then
      let h := (i + j) / 2
      if f h then loop f fuel i h else loop f fuel (h + 1) j
    else i

/-- `sort.Search`: each round halves the interval, so `n` rounds are enough. -/
def search (n : Nat) (f : Nat → Bool) : Nat := loop f n 0 n

variable {f : Nat → Bool}

/-- The loop ends at the first index that satisfies a monotone `f`. -/
theorem loop_spec {n : Nat} (hmono : ∀ a b, a ≤ b → b < n → f a = true → f b = true) :
    ∀ (fuel i j : Nat), j - i ≤ fuel → i ≤ j → j ≤ n →
      (∀ k, k < i → f k = false) → (∀ k, j ≤ k → k < n → f k = true) →
      (∀ k, k < loop f fuel i j → f k = false) ∧
        (∀ k, loop f fuel i j ≤ k → k < n → f k = true) ∧ loop f fuel i j ≤ n := by
  intro fuel
  induction fuel with
  | zero =>
    intro i j hfuel hij hjn hlow hhigh
    obtain rfl : i = j := by omega
    exact ⟨hlow, hhigh, hjn⟩
  | succ fuel ih =>
    intro i j hfuel hij hjn hlow hhigh
    rw [loop]
    split
    · rename_i hlt
      simp only
      split
      · rename_i hf
        refine ih i ((i + j) / 2) (by omega) (by omega) (by omega) hlow fun k hk hkn => ?_
        exact hmono _ k hk hkn hf
      · rename_i hf
        refine ih ((i + j) / 2 + 1) j (by omega) (by omega) hjn (fun k hk => ?_) hhigh
        by_contra hne
        exact hf (hmono k _ (by omega) (by omega) (Bool.eq_true_of_not_eq_false hne))
    · obtain rfl : i = j := by omega
      exact ⟨hlow, hhigh, hjn⟩

theorem search_spec {n : Nat} (hmono : ∀ a b, a ≤ b → b < n → f a = true → f b = true) :
    (∀ k, k < search n f → f k = false) ∧
      (∀ k, search n f ≤ k → k < n → f k = true) ∧ search n f ≤ n :=
  loop_spec hmono n 0 n (by omega) (Nat.zero_le n) le_rfl (fun _ hk => absurd hk (Nat.not_lt_zero _))
    fun _ hk hkn => absurd hkn (Nat.not_lt.mpr hk)

/-- The search stops at the first index that satisfies `f`. -/
theorem search_eq {n i : Nat} (hmono : ∀ a b, a ≤ b → b < n → f a = true → f b = true)
    (hi : i < n) (hf : f i = true) (hbelow : ∀ k, k < i → f k = false) : search n f = i := by
  obtain ⟨hlow, hhigh, -⟩ := search_spec hmono
  apply le_antisymm
  · by_contra hlt
    rw [hlow i (not_le.mp hlt)] at hf
    cases hf
  · by_contra hlt
    have hmin := hhigh (search n f) le_rfl (by omega)
    rw [hbelow _ (not_le.mp hlt)] at hmin
    cases hmin

end Search

end GoEthereum

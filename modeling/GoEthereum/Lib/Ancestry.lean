import Mathlib

/-!
# Ancestry in a tree with levels

A relation `parent p b` in which every element has one parent at most, one level below it. The
ancestors of an element then form a line, and a walk down from an element passes exactly its
ancestors above the one where it ends.
-/

namespace Ancestry

variable {α : Type} {parent : α → α → Prop} {level : α → ℕ}

variable {walk : List α} {a b c x : α}

structure Levelled (parent : α → α → Prop) (level : α → ℕ) : Prop where
  unique : ∀ {p q b}, parent p b → parent q b → p = q
  level_eq : ∀ {p b}, parent p b → level b = level p + 1

/-- The element itself, its parent, and so on. -/
abbrev Ancestor (parent : α → α → Prop) : α → α → Prop := Relation.ReflTransGen parent

namespace Levelled

theorem level_le (h : Levelled parent level) (hab : Ancestor parent a b) : level a ≤ level b := by
  induction hab with
  | refl => exact le_refl _
  | tail _ hstep ih =>
    rw [h.level_eq hstep]
    omega

theorem eq_of_level (h : Levelled parent level) (hab : Ancestor parent a b)
    (hlevel : level b ≤ level a) : a = b := by
  induction hab with
  | refl => rfl
  | tail hab hstep _ =>
    have hle := h.level_le hab
    rw [h.level_eq hstep] at hlevel
    omega

/-- An ancestor of an element is the element or an ancestor of its parent. -/
theorem ancestor_of_parent (h : Levelled parent level) {p : α} (hp : parent p b)
    (hab : Ancestor parent a b) : a = b ∨ Ancestor parent a p := by
  cases hab with
  | refl => exact .inl rfl
  | tail hab hstep =>
    rw [h.unique hp hstep]
    exact .inr hab

theorem comparable (h : Levelled parent level) (hac : Ancestor parent a c)
    (hbc : Ancestor parent b c) (hlevel : level a ≤ level b) : Ancestor parent a b := by
  induction hbc with
  | refl => exact hac
  | tail hbc hstep ih =>
    obtain rfl | hac := h.ancestor_of_parent hstep hac
    · have hle := h.level_le hbc
      rw [h.level_eq hstep] at hlevel
      omega
    · exact ih hac

theorem eq_of_ancestors (h : Levelled parent level) (hac : Ancestor parent a c)
    (hbc : Ancestor parent b c) (hlevel : level a = level b) : a = b :=
  h.eq_of_level (h.comparable hac hbc hlevel.le) hlevel.ge

end Levelled

/-- A walk from an element down to one of its ancestors, without the latter. -/
inductive Down (parent : α → α → Prop) : α → List α → α → Prop where
  | nil (a : α) : Down parent a [] a
  | cons {p b a : α} {walk : List α} : parent p b → Down parent p walk a →
      Down parent b (b :: walk) a

namespace Down

theorem append {upper lower : List α} (hupper : Down parent c upper b)
    (hlower : Down parent b lower a) : Down parent c (upper ++ lower) a := by
  induction hupper with
  | nil => exact hlower
  | cons hp _ ih => exact .cons hp (ih hlower)

theorem ancestor (h : Down parent b walk a) : Ancestor parent a b := by
  induction h with
  | nil => exact .refl
  | cons hp _ ih => exact ih.tail hp

theorem mem_iff (hl : Levelled parent level) (h : Down parent b walk a) :
    x ∈ walk ↔ Ancestor parent x b ∧ level a < level x := by
  induction h with
  | nil a =>
    refine ⟨fun hx => (List.not_mem_nil hx).elim, fun ⟨hx, hlevel⟩ => ?_⟩
    have hle := hl.level_le hx
    omega
  | @cons p b a walk hp hdown ih =>
    rw [List.mem_cons, ih]
    constructor
    · rintro (rfl | ⟨hx, hlevel⟩)
      · refine ⟨.refl, ?_⟩
        rw [hl.level_eq hp]
        exact Nat.lt_succ_of_le (hl.level_le hdown.ancestor)
      · exact ⟨hx.tail hp, hlevel⟩
    · rintro ⟨hx, hlevel⟩
      obtain rfl | hx := hl.ancestor_of_parent hp hx
      · exact .inl rfl
      · exact .inr ⟨hx, hlevel⟩

/-- The ancestors of the element from which a walk starts. -/
theorem ancestor_iff (hl : Levelled parent level) (h : Down parent b walk a) :
    Ancestor parent x b ↔ x ∈ walk ∨ Ancestor parent x a := by
  rw [h.mem_iff hl]
  constructor
  · intro hx
    by_cases hlevel : level a < level x
    · exact .inl ⟨hx, hlevel⟩
    · exact .inr (hl.comparable hx h.ancestor (by omega))
  · rintro (⟨hx, -⟩ | hx)
    · exact hx
    · exact hx.trans h.ancestor

end Down

end Ancestry

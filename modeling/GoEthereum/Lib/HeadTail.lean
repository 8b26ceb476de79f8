import Mathlib

/-!
# Head and tail layouts

A sequence of encoded parts is laid out as a head, which holds every inline
part where it stands and a pointer for every other, and a tail, which holds
the bodies the pointers lead to. Pointers count from the start of the layout.

- `layout` is the whole of it, `emit` the loop that writes it with one
  accumulator for the head and one for the tail.
- `Found` says that a part can be read at a position of a buffer, and
  `found_layout` that every part of a layout can be read at its place, with
  anything behind the layout.
-/

namespace HeadTail

open List

variable {β : Type*}

/-- One encoded part of a layout: its bytes, and whether the head only points at them. -/
structure Piece (β : Type*) where
  pointed : Bool
  body : List β

/-- The room a part takes in the head, for pointers of width `w`. -/
def Piece.width (w : Nat) (p : Piece β) : Nat := if p.pointed then w else p.body.length

def headWidth (w : Nat) (parts : List (Piece β)) : Nat := (parts.map (Piece.width w)).sum

@[simp]
theorem headWidth_nil (w : Nat) : headWidth w ([] : List (Piece β)) = 0 := rfl

@[simp]
theorem headWidth_cons (w : Nat) (p : Piece β) (ps : List (Piece β)) :
    headWidth w (p :: ps) = p.width w + headWidth w ps := by
  simp [headWidth]

@[simp]
theorem headWidth_append (w : Nat) (ps qs : List (Piece β)) :
    headWidth w (ps ++ qs) = headWidth w ps + headWidth w qs := by
  simp [headWidth]

/-- Parts of one width. -/
theorem headWidth_const {w c : Nat} {parts : List (Piece β)} (h : ∀ p ∈ parts, p.width w = c) :
    headWidth w parts = parts.length * c := by
  induction parts with
  | nil => simp
  | cons p ps ih =>
    rw [headWidth_cons, h p (mem_cons_self ..),
      ih fun q hq => h q (mem_cons_of_mem _ hq), length_cons, Nat.succ_mul,
      Nat.add_comm]

def tails : List (Piece β) → List β
  | [] => []
  | p :: ps => (if p.pointed then p.body else []) ++ tails ps

/-- Without pointers there is no tail. -/
theorem tails_inline {parts : List (Piece β)} (h : ∀ p ∈ parts, p.pointed = false) :
    tails parts = [] := by
  induction parts with
  | nil => rfl
  | cons p ps ih =>
    have hp := h p (mem_cons_self ..)
    simp [tails, hp, ih fun q hq => h q (mem_cons_of_mem _ hq)]

theorem tails_append (ps qs : List (Piece β)) : tails (ps ++ qs) = tails ps ++ tails qs := by
  induction ps with
  | nil => rfl
  | cons p ps ih => simp [tails, ih]

section Pointers

variable (w : Nat) (ptr : Nat → List β)

/-- The head of a layout whose next pointed body comes at `off`. -/
def heads : Nat → List (Piece β) → List β
  | _, [] => []
  | off, p :: ps =>
    if p.pointed then ptr off ++ heads (off + p.body.length) ps
    else p.body ++ heads off ps

def layout (parts : List (Piece β)) : List β :=
  heads ptr (headWidth w parts) parts ++ tails parts

/-- One round of the loop that writes a layout: head, tail, next pointer. -/
def emitPiece (acc : List β × List β × Nat) (p : Piece β) : List β × List β × Nat :=
  if p.pointed then (acc.1 ++ ptr acc.2.2, acc.2.1 ++ p.body, acc.2.2 + p.body.length)
  else (acc.1 ++ p.body, acc.2.1, acc.2.2)

def emit (acc : List β × List β × Nat) (parts : List (Piece β)) : List β × List β × Nat :=
  parts.foldl (emitPiece ptr) acc

theorem emit_eq (acc : List β × List β × Nat) (parts : List (Piece β)) :
    emit ptr acc parts = (acc.1 ++ heads ptr acc.2.2 parts, acc.2.1 ++ tails parts,
      acc.2.2 + (tails parts).length) := by
  induction parts generalizing acc with
  | nil => simp [emit, heads, tails]
  | cons p ps ih =>
    show emit ptr (emitPiece ptr acc p) ps = _
    rw [ih]
    by_cases hp : p.pointed = true
    · simp [emitPiece, heads, tails, hp, Nat.add_assoc]
    · simp [emitPiece, heads, tails, hp]

/-- Head and tail split at the same part. -/
theorem heads_append (off : Nat) (ps qs : List (Piece β)) :
    heads ptr off (ps ++ qs) = heads ptr off ps ++ heads ptr (off + (tails ps).length) qs := by
  induction ps generalizing off with
  | nil => rfl
  | cons p ps ih =>
    by_cases hp : p.pointed = true
    · simp [heads, tails, hp, ih, Nat.add_assoc]
    · simp [heads, tails, hp, ih]

/-- Without pointers the head does not depend on where the tail starts. -/
theorem heads_inline {parts : List (Piece β)} (h : ∀ p ∈ parts, p.pointed = false) (off off' : Nat) :
    heads ptr off parts = heads ptr off' parts := by
  induction parts with
  | nil => rfl
  | cons p ps ih =>
    have hp := h p (mem_cons_self ..)
    simp [heads, hp, ih fun q hq => h q (mem_cons_of_mem _ hq)]

/-- A part can be read at position `pos` of a buffer: its body stands there,
or a pointer to it. -/
def Found (buf : List β) (pos : Nat) (p : Piece β) : Prop :=
  if p.pointed then
    ∃ off rest, pos ≤ buf.length ∧ buf.drop pos = ptr off ++ rest ∧
      off ≤ buf.length ∧ ∃ rest', buf.drop off = p.body ++ rest'
  else pos ≤ buf.length ∧ ∃ rest, buf.drop pos = p.body ++ rest

/-- Some parts can be read one behind the other from position `pos` on. -/
def FoundAll (buf : List β) : Nat → List (Piece β) → Prop
  | _, [] => True
  | pos, p :: ps => Found ptr buf pos p ∧ FoundAll buf (pos + p.width w) ps

variable {w} {ptr} (hptr : ∀ n, (ptr n).length = w)

include hptr

theorem heads_length (off : Nat) (parts : List (Piece β)) :
    (heads ptr off parts).length = headWidth w parts := by
  induction parts generalizing off with
  | nil => rfl
  | cons p ps ih =>
    by_cases hp : p.pointed = true
    · simp [heads, hp, ih, hptr, Piece.width]
    · simp [heads, hp, ih, Piece.width]

theorem layout_length (parts : List (Piece β)) :
    (layout w ptr parts).length = headWidth w parts + (tails parts).length := by
  rw [layout, length_append, heads_length hptr]

/-- Every part of a layout can be read at its place. -/
theorem found_layout (pre : List (Piece β)) (p : Piece β) (post : List (Piece β)) (junk : List β) :
    Found ptr (layout w ptr (pre ++ p :: post) ++ junk) (headWidth w pre) p := by
  set H := headWidth w (pre ++ p :: post) with hH
  have hHeq : H = headWidth w pre + (p.width w + headWidth w post) := by simp [hH]
  -- the head before the part, the part's place, and the tail before its body
  have hsplit : layout w ptr (pre ++ p :: post) ++ junk =
      heads ptr H pre ++ (heads ptr (H + (tails pre).length) (p :: post)
        ++ (tails pre ++ (tails (p :: post) ++ junk))) := by
    rw [layout, heads_append, tails_append]
    simp [hH]
  have hhead := heads_length hptr H pre
  have hrest := heads_length hptr (H + (tails pre).length) (p :: post)
  rw [Found, hsplit]
  by_cases hp : p.pointed = true
  · rw [if_pos hp]
    refine ⟨H + (tails pre).length, heads ptr (H + (tails pre).length + p.body.length) post
      ++ (tails pre ++ (tails (p :: post) ++ junk)), ?_, ?_, ?_, tails post ++ junk, ?_⟩
    · rw [length_append, hhead]
      exact Nat.le_add_right _ _
    · rw [← hhead, drop_left]
      simp [heads, hp]
    · simp only [length_append, hhead, hrest, headWidth_cons]
      omega
    · have hoff : H + (tails pre).length = (heads ptr H pre
          ++ heads ptr (H + (tails pre).length) (p :: post) ++ tails pre).length := by
        simp only [length_append, hhead, hrest, headWidth_cons]
        omega
      rw [← append_assoc, ← append_assoc, drop_left' hoff.symm]
      simp [tails, hp]
  · rw [if_neg hp]
    refine ⟨?_, heads ptr (H + (tails pre).length) post
      ++ (tails pre ++ (tails (p :: post) ++ junk)), ?_⟩
    · rw [length_append, hhead]
      exact Nat.le_add_right _ _
    · rw [← hhead, drop_left]
      simp [heads, hp]

/-- What can be read lies within the buffer. -/
theorem Found.le {buf : List β} {pos : Nat} {p : Piece β} (h : Found ptr buf pos p) :
    pos + p.width w ≤ buf.length := by
  have hdrop : ∀ b rest : List β, pos ≤ buf.length → buf.drop pos = b ++ rest →
      pos + b.length ≤ buf.length := by
    intro b rest hpos heq
    have hlen := congrArg length heq
    rw [length_drop, length_append] at hlen
    omega
  rw [Found] at h
  rw [Piece.width]
  split at h
  · rename_i hp
    obtain ⟨off, rest, hpos, heq, _⟩ := h
    rw [if_pos hp, ← hptr off]
    exact hdrop _ _ hpos heq
  · rename_i hp
    obtain ⟨hpos, rest, heq⟩ := h
    rw [if_neg hp]
    exact hdrop _ _ hpos heq

theorem foundAll_layout (parts : List (Piece β)) (junk : List β) :
    FoundAll w ptr (layout w ptr parts ++ junk) 0 parts := by
  have key : ∀ (post pre : List (Piece β)), pre ++ post = parts →
      FoundAll w ptr (layout w ptr parts ++ junk) (headWidth w pre) post := by
    intro post
    induction post with
    | nil => exact fun _ _ => trivial
    | cons p ps ih =>
      intro pre h
      refine ⟨h ▸ found_layout hptr pre p ps junk, ?_⟩
      have hnext := ih (pre ++ [p]) (by simpa using h)
      rwa [headWidth_append, headWidth_cons, headWidth_nil, Nat.add_zero] at hnext
  exact key parts [] rfl

end Pointers

end HeadTail

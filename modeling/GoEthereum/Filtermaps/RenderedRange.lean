import Mathlib

/-!
# The rendered maps of the log index

The log index renders filter maps in a main section and, below it, in the first part of one epoch.
`addRenderedRange` adds a section, removes the maps after it, and has to say what is left in the
same shape. It does both in one sweep over the end points of all sections, each with a weight.
-/

namespace GoEthereum.Filtermaps

open List

/-! ## The sweep -/

/-- An end point of a section, with what it adds to the weight of the maps from there on. -/
structure Endpoint where
  m : UInt32
  d : Int
  deriving DecidableEq

/-- The loop over the sorted end points. `sum` is the weight reached and `last` whether the maps
before the next point are in the result, which changes at the points returned. -/
def sweep (sum : Int) (last : Bool) : List Endpoint → List UInt32
  | [] => []
  | e :: es =>
    -- of several points at one map only the last decides
    if es.head?.any (·.m == e.m) then sweep (sum + e.d) last es
    else if decide (0 < sum + e.d) != last then e.m :: sweep (sum + e.d) (!last) es
    else sweep (sum + e.d) last es

/-- Whether a map is in a set that starts with `b` and changes at each of the points. -/
def toggled (b : Bool) : List UInt32 → UInt32 → Bool
  | [], _ => b
  | m :: ms, x => if x < m then b else toggled (!b) ms x

/-- The weight of a map: what the end points up to it add up to. -/
def weight (es : List Endpoint) (x : UInt32) : Int :=
  (es.map fun e => if e.m ≤ x then e.d else 0).sum

variable {e : Endpoint} {es : List Endpoint} {x : UInt32} {sum : Int} {last : Bool}

theorem weight_cons (h : e.m ≤ x) : weight (e :: es) x = e.d + weight es x :=
  sum_cons.trans (congrArg (· + weight es x) (if_pos h))

theorem weight_eq_zero (h : ∀ e ∈ es, x < e.m) : weight es x = 0 := by
  refine sum_eq_zero fun d hd => ?_
  obtain ⟨e, he, rfl⟩ := mem_map.mp hd
  exact if_neg (UInt32.not_le.mpr (h e he))

theorem sweep_sublist : (sweep sum last es).Sublist (es.map (·.m)) := by
  fun_induction sweep sum last es with
  | case1 => exact .slnil
  | case2 _ _ _ _ _ ih => exact ih.cons _
  | case3 _ _ _ _ _ _ ih => exact ih.cons_cons _
  | case4 _ _ _ _ _ _ ih => exact ih.cons _

/-- Where the next point is at another map, all later points are beyond this one. -/
theorem lt_of_head_ne (hs : (e :: es).Pairwise (·.m ≤ ·.m)) (hne : ¬es.head?.any (·.m == e.m)) :
    ∀ e' ∈ es, e.m < e'.m := by
  obtain ⟨hle, hs⟩ := pairwise_cons.mp hs
  cases es with
  | nil => exact fun _ h => by cases h
  | cons a es =>
    have ha : a.m ≠ e.m := by simpa using hne
    have hlt : e.m < a.m := UInt32.lt_of_le_of_ne (hle a mem_cons_self) ha.symm
    refine forall_mem_cons.mpr ⟨hlt, fun e' he' => ?_⟩
    exact UInt32.lt_of_lt_of_le hlt ((pairwise_cons.mp hs).1 e' he')

theorem sweep_ascending (hs : es.Pairwise (·.m ≤ ·.m)) :
    (sweep sum last es).Pairwise (· < ·) := by
  fun_induction sweep sum last es with
  | case1 => exact .nil
  | case2 _ _ _ _ _ ih => exact ih hs.of_cons
  | case3 _ _ e es hne _ ih =>
    refine .cons (fun y hy => ?_) (ih hs.of_cons)
    obtain ⟨e', he', rfl⟩ := mem_map.mp (sweep_sublist.subset hy)
    exact lt_of_head_ne hs hne e' he'
  | case4 _ _ _ _ _ _ ih => exact ih hs.of_cons

theorem toggled_of_lt {b : Bool} {ms : List UInt32} (h : ∀ m ∈ ms, x < m) :
    toggled b ms x = b := by
  cases ms with
  | nil => rfl
  | cons m ms => exact if_pos (h m mem_cons_self)

theorem toggled_sweep_of_lt (h : ∀ e ∈ es, x < e.m) : toggled last (sweep sum last es) x = last := by
  refine toggled_of_lt fun m hm => ?_
  obtain ⟨e, he, rfl⟩ := mem_map.mp (sweep_sublist.subset hm)
  exact h e he

/-- With `last` as the weight so far says, it does not matter whether more points are reached. -/
theorem toggled_settled (hlast : last = decide (0 < sum))
    (h : (∃ e ∈ es, e.m ≤ x) → toggled last (sweep sum last es) x = decide (0 < sum + weight es x)) :
    toggled last (sweep sum last es) x = decide (0 < sum + weight es x) := by
  by_cases hmore : ∃ e ∈ es, e.m ≤ x
  · exact h hmore
  · have hlt : ∀ e ∈ es, x < e.m := fun e he => UInt32.not_le.mp fun hle => hmore ⟨e, he, hle⟩
    rw [toggled_sweep_of_lt hlt, weight_eq_zero hlt, add_zero, hlast]

theorem first_le (hs : (e :: es).Pairwise (·.m ≤ ·.m)) (hx : ∃ a ∈ e :: es, a.m ≤ x) :
    e.m ≤ x := by
  obtain ⟨a, ha, hle⟩ := hx
  rcases mem_cons.mp ha with rfl | ha
  · exact hle
  · exact UInt32.le_trans ((pairwise_cons.mp hs).1 a ha) hle

/-- The set the sweep returns, from the first point on: the maps of positive weight. -/
theorem toggled_sweep (hs : es.Pairwise (·.m ≤ ·.m)) (hx : ∃ e ∈ es, e.m ≤ x) :
    toggled last (sweep sum last es) x = decide (0 < sum + weight es x) := by
  fun_induction sweep sum last es with
  | case1 => obtain ⟨_, h, _⟩ := hx; cases h
  | case2 sum last e es hsame ih =>
    have hle := first_le hs hx
    rw [weight_cons hle, ← add_assoc]
    refine ih hs.of_cons ?_
    cases es with
    | nil => cases hsame
    | cons a es =>
      have ha : a.m = e.m := by simpa using hsame
      exact ⟨a, mem_cons_self, ha ▸ hle⟩
  | case3 sum last e es hne hflip ih =>
    have hle := first_le hs hx
    rw [weight_cons hle, ← add_assoc, toggled, if_neg (UInt32.not_lt.mpr hle)]
    exact toggled_settled (by grind) (ih hs.of_cons)
  | case4 sum last e es hne hflip ih =>
    rw [weight_cons (first_le hs hx), ← add_assoc]
    exact toggled_settled (by grind) (ih hs.of_cons)

/-- What `sort.Slice` promises: the elements in order, those at one map in any order. -/
structure Sorter where
  sort : List Endpoint → List Endpoint
  perm : ∀ es, (sort es).Perm es
  ascending : ∀ es, (sort es).Pairwise (·.m ≤ ·.m)

theorem toggled_sorted (σ : Sorter) :
    toggled false (sweep 0 false (σ.sort es)) x = decide (0 < weight es x) := by
  have hsame : weight (σ.sort es) x = weight es x := ((σ.perm es).map _).sum_eq
  rw [toggled_settled (by decide) (toggled_sweep (σ.ascending es)), hsame, zero_add]

/-! ## The rendered range -/

/-- A range of map indices, the end not included. -/
structure Range where
  first : UInt32
  afterLast : UInt32
  deriving DecidableEq

def newRange (first count : UInt32) : Range := ⟨first, first + count⟩

structure FilterMapsRange where
  initialized : Bool
  maps : Range
  tailPartialEpoch : UInt32
  deriving DecidableEq

/-- The errors of `addRenderedRange`; the last two report the points of change. -/
inductive RangeError where
  | notInitialized
  | invalidTailPartialEpoch (merged : List UInt32)
  | invalidNumberOfSections (merged : List UInt32)
  deriving DecidableEq

def endpoints (fmr : FilterMapsRange)
    (firstRendered afterLastRendered afterLastRemoved mapsPerEpoch : UInt32) : List Endpoint :=
  [⟨fmr.maps.first, 1⟩, ⟨fmr.maps.afterLast, -1⟩, ⟨firstRendered, 1⟩, ⟨afterLastRendered, -101⟩,
    ⟨afterLastRemoved, 100⟩] ++
  if 0 < fmr.tailPartialEpoch then
    [⟨fmr.maps.first - mapsPerEpoch, 1⟩,
      ⟨fmr.maps.first - mapsPerEpoch + fmr.tailPartialEpoch, -1⟩]
  else []

/-- The range with the sections between the points of change, if it can have them. -/
def FilterMapsRange.setSections (fmr : FilterMapsRange) (firstRendered mapsPerEpoch : UInt32) :
    List UInt32 → Except RangeError FilterMapsRange
  | [] => .ok { fmr with tailPartialEpoch := 0, maps := newRange firstRendered 0 }
  | [a, b] => .ok { fmr with tailPartialEpoch := 0, maps := newRange a (b - a) }
  | [a, b, c, d] =>
    if c ≠ a + mapsPerEpoch then .error (.invalidTailPartialEpoch [a, b, c, d])
    else .ok { fmr with tailPartialEpoch := b - a, maps := newRange c (d - c) }
  | merged => .error (.invalidNumberOfSections merged)

/-- Adds the maps from `firstRendered` to `afterLastRendered` and removes those from there to
`afterLastRemoved`. -/
def addRenderedRange (σ : Sorter) (fmr : FilterMapsRange)
    (firstRendered afterLastRendered afterLastRemoved mapsPerEpoch : UInt32) :
    Except RangeError FilterMapsRange :=
  if !fmr.initialized then .error .notInitialized
  else
    fmr.setSections firstRendered mapsPerEpoch (sweep 0 false
      (σ.sort (endpoints fmr firstRendered afterLastRendered afterLastRemoved mapsPerEpoch)))

/-- The maps from `a` to `b`, the latter not included. -/
def span (a b : UInt32) : Set UInt32 := {x | a ≤ x ∧ x < b}

/-- The shape of a rendered range: a main section, and below it at most one epoch of which the
first maps are rendered, if any. -/
structure FilterMapsRange.Valid (fmr : FilterMapsRange) (mapsPerEpoch : UInt32) : Prop where
  initialized : fmr.initialized = true
  ordered : fmr.maps.first ≤ fmr.maps.afterLast
  epoch : 0 < fmr.tailPartialEpoch → mapsPerEpoch ≤ fmr.maps.first
  tail : fmr.tailPartialEpoch ≤ mapsPerEpoch

/-- The maps a range describes as rendered. -/
def FilterMapsRange.rendered (fmr : FilterMapsRange) (mapsPerEpoch : UInt32) : Set UInt32 :=
  span fmr.maps.first fmr.maps.afterLast ∪
  span (fmr.maps.first - mapsPerEpoch) (fmr.maps.first - mapsPerEpoch + fmr.tailPartialEpoch)

variable {fmr : FilterMapsRange}
  {firstRendered afterLastRendered afterLastRemoved mapsPerEpoch : UInt32}

/-- The maps added and removed: each section gives its maps weight one, and what is removed takes
away more than all sections together can give. -/
theorem weight_endpoints (hv : fmr.Valid mapsPerEpoch) (hadd : firstRendered ≤ afterLastRendered)
    (hremove : afterLastRendered ≤ afterLastRemoved) :
    0 < weight (endpoints fmr firstRendered afterLastRendered afterLastRemoved mapsPerEpoch) x ↔
      x ∈ (fmr.rendered mapsPerEpoch ∪ span firstRendered afterLastRendered) \
        span afterLastRendered afterLastRemoved := by
  obtain ⟨-, hmain, hepoch, htail⟩ := hv
  have hlow : fmr.maps.first - mapsPerEpoch ≤
      fmr.maps.first - mapsPerEpoch + fmr.tailPartialEpoch := by grind
  have hnone : fmr.tailPartialEpoch = 0 → fmr.maps.first - mapsPerEpoch =
      fmr.maps.first - mapsPerEpoch + fmr.tailPartialEpoch := by grind
  simp only [weight, endpoints, FilterMapsRange.rendered, span, Set.mem_sdiff, Set.mem_union,
    Set.mem_ofPred_eq]
  generalize fmr.maps.first - mapsPerEpoch + fmr.tailPartialEpoch = high at hlow hnone ⊢
  generalize fmr.maps.first - mapsPerEpoch = low at hlow hnone ⊢
  split
  all_goals
    simp only [cons_append, nil_append, map_cons, map_nil, sum_cons,
      sum_nil]
    grind

/-- What it is to have described a set of maps, or to have failed to. -/
def Exact (mapsPerEpoch : UInt32) (maps : Set UInt32) :
    Except RangeError FilterMapsRange → Prop
  | .ok fmr => fmr.Valid mapsPerEpoch ∧ fmr.rendered mapsPerEpoch = maps
  | .error _ => ∀ fmr : FilterMapsRange, fmr.Valid mapsPerEpoch → fmr.rendered mapsPerEpoch ≠ maps

section
variable {maps : Set UInt32} {a b c t : UInt32} {merged : List UInt32}

theorem exact_ok (hi : fmr.initialized = true) (hab : a ≤ b) (hlow : 0 < t → mapsPerEpoch ≤ a)
    (ht : t ≤ mapsPerEpoch)
    (hmaps : ∀ x, x ∈ maps ↔
      (a ≤ x ∧ x < b) ∨ (a - mapsPerEpoch ≤ x ∧ x < a - mapsPerEpoch + t)) :
    Exact mapsPerEpoch maps (.ok { fmr with tailPartialEpoch := t, maps := newRange a (b - a) }) := by
  have hend : a + (b - a) = b := by grind
  rw [newRange, hend]
  exact ⟨⟨hi, hab, hlow, ht⟩, Set.ext fun x => (hmaps x).symm⟩

/-- One section, which may be empty. -/
theorem exact_main (hi : fmr.initialized = true) (hab : a ≤ b)
    (hmaps : ∀ x, x ∈ maps ↔ a ≤ x ∧ x < b) :
    Exact mapsPerEpoch maps (.ok { fmr with tailPartialEpoch := 0, maps := newRange a (b - a) }) := by
  refine exact_ok hi hab (fun h => absurd h (UInt32.lt_irrefl 0)) (UInt32.zero_le) fun x => ?_
  rw [hmaps, UInt32.add_zero]
  generalize a - mapsPerEpoch = low
  grind

/-- In a valid range with a gap the second section starts one epoch after the first. -/
theorem FilterMapsRange.Valid.second (hv : fmr.Valid mapsPerEpoch)
    (hr : fmr.rendered mapsPerEpoch = maps) (hab : a < b) (hbc : b < c)
    (hlow : ∀ x < c, x ∈ maps ↔ a ≤ x ∧ x < b) (hc : c ∈ maps) :
    c = a + mapsPerEpoch ∧ c = fmr.maps.first := by
  have h0 := hlow (fmr.maps.first - mapsPerEpoch)
  have h1 := hlow b hbc
  have h2 := hlow fmr.maps.first
  have h3 := hlow a
  obtain ⟨-, hmain, hepoch, htail⟩ := hv
  subst hr
  clear hlow
  simp only [FilterMapsRange.rendered, span, Set.mem_union, Set.mem_ofPred_eq] at *
  grind

theorem setSections_exact (hi : fmr.initialized = true)
    (hmaps : ∀ x, x ∈ maps ↔ toggled false merged x) (hasc : merged.Pairwise (· < ·))
    (htop : 4294967295 ∉ maps) :
    Exact mapsPerEpoch maps (fmr.setSections firstRendered mapsPerEpoch merged) := by
  rcases merged with _ | ⟨a, _ | ⟨b, _ | ⟨c, _ | ⟨d, merged⟩⟩⟩⟩
  · have hmain := @exact_main fmr mapsPerEpoch maps firstRendered firstRendered hi UInt32.le_rfl
    rw [UInt32.sub_self] at hmain
    exact hmain (by grind [toggled])
  · exact absurd ((hmaps _).mpr (by grind [toggled])) htop
  · refine exact_main hi (by grind) fun x => ?_
    rw [hmaps]
    grind [toggled]
  · exact absurd ((hmaps _).mpr (by grind [toggled])) htop
  simp only [pairwise_cons, forall_mem_cons] at hasc
  obtain ⟨⟨hab, -⟩, ⟨hbc, -⟩, ⟨hcd, -⟩, hrest, hasc⟩ := hasc
  have hlow x (hx : x < c) : x ∈ maps ↔ a ≤ x ∧ x < b := by
    rw [hmaps]
    grind [toggled]
  have hc : c ∈ maps := (hmaps c).mpr (by grind [toggled])
  rcases merged with _ | ⟨e, merged⟩
  · rw [FilterMapsRange.setSections]
    split
    · rename_i hne
      exact fun fmr' hv hr => hne (hv.second hr hab hbc hlow hc).1
    next heq =>
    obtain rfl := not_not.mp heq
    refine exact_ok hi (by grind) (by grind) (by grind) fun x => ?_
    have hend : a + (b - a) = b := by grind
    rw [hmaps, UInt32.add_sub_cancel, hend]
    generalize a + mapsPerEpoch = c at *
    grind [toggled]
  · -- a third section, after a gap in what is then the main one
    intro fmr' hv hr
    have hmain := (hv.second hr hab hbc hlow hc).2
    have hde := (forall_mem_cons.mp hrest).1
    have hd : d ∉ maps := (hmaps d).not.mpr (by grind [toggled])
    have he : e ∈ maps := by
      have hlast := @toggled_of_lt e true merged (pairwise_cons.mp hasc).1
      rw [hmaps]
      grind [toggled]
    rw [← hr] at hd he
    obtain ⟨-, hend, hepoch, htail⟩ := hv
    simp only [FilterMapsRange.rendered, span, Set.mem_union, Set.mem_ofPred_eq] at hd he
    grind

end

/-- `addRenderedRange` is exact: where it succeeds the new range is valid and describes the maps
there were and those added, without those removed; where it fails no valid range describes them. -/
theorem addRenderedRange_exact (σ : Sorter) (hv : fmr.Valid mapsPerEpoch)
    (hadd : firstRendered ≤ afterLastRendered) (hremove : afterLastRendered ≤ afterLastRemoved) :
    Exact mapsPerEpoch
      ((fmr.rendered mapsPerEpoch ∪ span firstRendered afterLastRendered) \
        span afterLastRendered afterLastRemoved)
      (addRenderedRange σ fmr firstRendered afterLastRendered afterLastRemoved mapsPerEpoch) := by
  rw [addRenderedRange, hv.initialized]
  refine setSections_exact hv.initialized (fun x => ?_) (sweep_ascending (σ.ascending _)) ?_
  · rw [toggled_sorted, decide_eq_true_iff, weight_endpoints hv hadd hremove]
  · -- no range reaches the last index
    simp only [FilterMapsRange.rendered, span, Set.mem_sdiff, Set.mem_union, Set.mem_ofPred_eq]
    grind

theorem mergeSort_ascending (es : List Endpoint) :
    (es.mergeSort fun a b => a.m ≤ b.m).Pairwise (·.m ≤ ·.m) := by
  refine (pairwise_mergeSort (fun a b c => ?_) (fun a b => ?_) es).imp decide_eq_true_iff.mp
  · grind
  · grind

def mergeSorter : Sorter := ⟨_, fun es => es.mergeSort_perm _, mergeSort_ascending⟩

/-- Ten maps more after a main section with a partial epoch below it. -/
theorem addRenderedRange_exact_tail :
    let fmr : FilterMapsRange := ⟨true, ⟨100, 120⟩, 5⟩
    Exact 20 ((fmr.rendered 20 ∪ span 120 130) \ span 130 140)
      (addRenderedRange mergeSorter fmr 120 130 140 20) :=
  addRenderedRange_exact mergeSorter ⟨rfl, by decide, by decide, by decide⟩ (by decide) (by decide)

end GoEthereum.Filtermaps

import GoEthereum.Common

/-!
# Flat states while the snapshot is generated

Below the diff layers the accounts and slots are read from the dirty buffer, the clean cache and
the database, in this order. As long as a generator fills the database, only what lies up to its
marker counts: `writeStates` skips the rest, and a query of the rest is refused. The two decide
it by different comparisons.
-/

namespace GoEthereum.Pathdb

open List Function

/-- What is looked up: an account, or a slot of one. -/
inductive Key where
  | account (hash : Hash)
  | slot (accountHash storageHash : Hash)
deriving DecidableEq

/-- The key in the clean cache. -/
def Key.bytes : Key → Bytes
  | .account hash => hash.toList
  | .slot accountHash storageHash => accountHash.toList ++ storageHash.toList

/-- The accounts and slots of a state set, in the order in which its maps are iterated. -/
abbrev StateSet : Type := List (Key × Bytes)

/-- The database, where an empty value is none, and the clean cache, if there is one. -/
structure Flat where
  disk : Key → Bytes
  states : Option (Bytes → Option Bytes)

/-- Writing or, if it is empty, deleting a value, with `clean.Set`. -/
def Flat.put (s : Flat) (k : Key) (blob : Bytes) : Flat where
  disk := update s.disk k blob
  states := s.states.map fun c => update c k.bytes (some blob)

inductive Panic where
  | sliceBounds
deriving DecidableEq

/-- Whether `writeStates` skips a key. -/
def skips (genMarker : Option Bytes) : Key → Except Panic Bool
  | .account addrHash => .ok (genMarker.any (· < addrHash.toList))
  | .slot addrHash storageHash =>
    if genMarker.any (· < addrHash.toList) then .ok true
    else
      match genMarker with
      | none => .ok false
      | some m =>
        -- of `genMarker[:common.HashLength]`
        if m.length < 32 then .error .sliceBounds
        else .ok (decide (addrHash.toList = m.take 32) && decide (m.drop 32 < storageHash.toList))

def writeStates (genMarker : Option Bytes) (set : StateSet) (s : Flat) : Except Panic Flat :=
  set.foldlM (fun s e => (skips genMarker e.1).map fun skip => if skip then s else s.put e.1 e.2) s

structure DiskLayer extends Flat where
  stale : Bool
  buffer : StateSet
  genMarker : Option Bytes

inductive Err where
  | snapshotStale
  | notCoveredYet
deriving DecidableEq

/-- The look-up of a key, with the layer it leaves. -/
def DiskLayer.get (dl : DiskLayer) (k : Key) : Except Err Bytes × DiskLayer :=
  if dl.stale then (.error .snapshotStale, dl)
  else
    match dl.buffer.lookup k with
    | some blob => (.ok blob, dl)
    | none =>
      if dl.genMarker.any (· < k.bytes) then (.error .notCoveredYet, dl)
      else
        match dl.states with
        | none => (.ok (dl.disk k), dl)
        | some c =>
          match c k.bytes with
          | some blob => (.ok blob, dl)
          | none =>
            (.ok (dl.disk k), { dl with states := some (update c k.bytes (some (dl.disk k))) })

def DiskLayer.account (dl : DiskLayer) (hash : Hash) : Except Err Bytes × DiskLayer :=
  dl.get (.account hash)

def DiskLayer.storage (dl : DiskLayer) (accountHash storageHash : Hash) :
    Except Err Bytes × DiskLayer :=
  dl.get (.slot accountHash storageHash)

/-! ## What is covered -/

variable {m : Option Bytes} {k : Key} {s : Flat}

/-- Generation markers: none once the snapshot is complete, or the empty one, an account hash, or
an account hash and a slot hash. -/
def IsMarker (m : Option Bytes) : Prop := ∀ b ∈ m, b.length = 0 ∨ b.length = 32 ∨ b.length = 64

/-- The keys up to the marker. -/
def covered (m : Option Bytes) (k : Key) : Bool := !m.any (· < k.bytes)

theorem append_lt_append {a b : Bytes} (h : a.length = b.length) (x y : Bytes) :
    a ++ x < b ++ y ↔ a < b ∨ a = b ∧ x < y := by
  induction a generalizing b with
  | nil =>
    obtain rfl : b = [] := length_eq_zero_iff.mp h.symm
    simp
  | cons c a ih =>
    cases b with
    | nil => cases h
    | cons d b =>
      rw [cons_append, cons_append, cons_lt_cons_iff, cons_lt_cons_iff, ih (Nat.succ.inj h),
        cons.injEq]
      tauto

theorem nil_lt {l : Bytes} (h : 32 ≤ l.length) : [] < l := by
  cases l with
  | nil => cases h
  | cons c l => exact nil_lt_cons c l

theorem Key.bytes_injective : Injective Key.bytes := by
  intro j k h
  have hlen := congrArg length h
  cases j <;> cases k <;> simp only [Key.bytes, length_append, Vector.toList_length] at h hlen
  case account.account => rw [Vector.toList_injective h]
  case slot.slot =>
    obtain ⟨ha, hs⟩ := append_inj h (by simp)
    rw [Vector.toList_injective ha, Vector.toList_injective hs]
  all_goals omega

/-- What `writeStates` skips is what a query refuses, and no slice is out of range. -/
theorem skips_eq (hm : IsMarker m) (k : Key) : skips m k = .ok (!covered m k) := by
  rw [covered, Bool.not_not]
  cases k with
  | account addrHash => rfl
  | slot addrHash storageHash =>
    cases m with
    | none => rfl
    | some b =>
      have haddr := addrHash.toList_length
      simp only [skips, Option.any_some, decide_eq_true_eq]
      rcases Nat.eq_zero_or_pos b.length with h0 | hpos
      · -- every key is beyond the empty marker
        obtain rfl := length_eq_zero_iff.mp h0
        have hslot : [] < (Key.slot addrHash storageHash).bytes :=
          nil_lt (by rw [Key.bytes, length_append]; omega)
        rw [if_pos (nil_lt haddr.ge), decide_eq_true hslot]
      · have hlen : (b.take 32).length = addrHash.toList.length := by
          rw [length_take, haddr]
          have := hm b rfl
          omega
        have hacc := append_lt_append hlen (b.drop 32) []
        have hslot := append_lt_append hlen (b.drop 32) storageHash.toList
        rw [take_append_drop] at hacc hslot
        rw [append_nil, or_iff_left fun h => not_lt_nil _ h.2] at hacc
        rw [length_take, haddr] at hlen
        change b < (Key.slot addrHash storageHash).bytes ↔ _ at hslot
        by_cases h : b < addrHash.toList
        · rw [if_pos h, decide_eq_true (hslot.mpr (.inl (hacc.mp h)))]
        · rw [if_neg h, if_neg (by omega), ← Bool.decide_and]
          refine congrArg Except.ok (decide_eq_decide.mpr ?_)
          rw [hslot, or_iff_right (hacc.not.mp h), eq_comm]

/-- The writes of a state set: its entries up to the marker. -/
def written (m : Option Bytes) (set : StateSet) : StateSet := set.filter fun e => covered m e.1

def Flat.putAll (s : Flat) (es : StateSet) : Flat := es.foldl (fun s e => s.put e.1 e.2) s

theorem Flat.putAll_append (s : Flat) (es es' : StateSet) :
    s.putAll (es ++ es') = (s.putAll es).putAll es' := foldl_append

theorem writeStates_eq (hm : IsMarker m) (set : StateSet) (s : Flat) :
    writeStates m set s = .ok (s.putAll (written m set)) := by
  induction set generalizing s with
  | nil => rfl
  | cons e set ih =>
    rw [writeStates, foldlM_cons, skips_eq hm, written, filter_cons]
    cases covered m e.1 with
    | true => exact ih _
    | false => exact ih _

/-! ## Runs -/

/-- What happens to a layer: the buffer changes as layers are merged into it or reverted in it, it
is flushed, a reverted state is written, keys are looked up, and the cache drops entries. -/
inductive Event where
  | merge (buffer : StateSet)
  | flush
  | revert (states : StateSet)
  | query (k : Key)
  | evict (keep : Bytes → Bool)

/-- The layer after an event, and what the event wrote. -/
def DiskLayer.step (dl : DiskLayer) : Event → Except Panic (DiskLayer × StateSet)
  | .merge buffer => .ok ({ dl with buffer := buffer }, [])
  | .flush => (writeStates dl.genMarker dl.buffer dl.toFlat).map fun s =>
    ({ dl with toFlat := s, buffer := [] }, written dl.genMarker dl.buffer)
  | .revert states => (writeStates dl.genMarker states dl.toFlat).map fun s =>
    ({ dl with toFlat := s }, written dl.genMarker states)
  | .query k => .ok ((dl.get k).2, [])
  | .evict keep =>
    .ok ({ dl with states := dl.states.map fun c b => if keep b then c b else none }, [])

def DiskLayer.run (dl : DiskLayer) : List Event → Except Panic (DiskLayer × StateSet)
  | [] => .ok (dl, [])
  | e :: es => do
    let (dl, ws) ← dl.step e
    let (dl, ws') ← dl.run es
    return (dl, ws ++ ws')

/-- The value last written under a key, `d` if there is none. -/
def lastWritten (ws : StateSet) (k : Key) (d : Bytes) : Bytes := (ws.reverse.lookup k).getD d

/-- What the clean cache has of the keys up to the marker is what the database has. -/
def Coherent (m : Option Bytes) (s : Flat) : Prop :=
  ∀ c ∈ s.states, ∀ k, covered m k = true → ∀ blob ∈ c k.bytes, blob = s.disk k

theorem lastWritten_append (ws ws' : StateSet) (k : Key) (d : Bytes) :
    lastWritten (ws ++ ws') k d = lastWritten ws' k (lastWritten ws k d) := by
  rw [lastWritten, lastWritten, lastWritten, reverse_append, lookup_append]
  cases ws'.reverse.lookup k <;> rfl

theorem Coherent.put (h : Coherent m s) (k : Key) (blob : Bytes) : Coherent m (s.put k blob) := by
  intro c hc j hj blob' hblob
  obtain ⟨c₀, hc₀, rfl⟩ := Option.mem_map.mp hc
  show blob' = update s.disk k blob j
  by_cases hjk : j = k
  · subst hjk
    rw [update_self] at hblob ⊢
    exact (Option.some.inj hblob).symm
  · rw [update_of_ne fun h => hjk (Key.bytes_injective h)] at hblob
    rw [update_of_ne hjk]
    exact h c₀ hc₀ j hj blob' hblob

/-- Writing keeps the cache coherent, and leaves what was written last. -/
theorem Coherent.putAll (h : Coherent m s) (es : StateSet) :
    Coherent m (s.putAll es) ∧ ∀ k, (s.putAll es).disk k = lastWritten es k (s.disk k) := by
  induction es using reverseRecOn with
  | nil => exact ⟨h, fun _ => rfl⟩
  | append_singleton es e ih =>
    rw [Flat.putAll_append]
    refine ⟨ih.1.put e.1 e.2, fun k => ?_⟩
    rw [lastWritten_append, ← ih.2, lastWritten, reverse_singleton, lookup_cons]
    show update _ _ _ _ = _
    rw [update_apply]
    split
    · rename_i hk
      rw [hk, beq_self_eq_true]
      rfl
    · rename_i hk
      rw [beq_eq_false_iff_ne.mpr hk]
      rfl

/-- A layer after some writes: the cache is coherent, and the database has what was written. -/
structure Follows (dl : DiskLayer) (ws : StateSet) (dl' : DiskLayer) : Prop where
  genMarker : dl'.genMarker = dl.genMarker
  stale : dl'.stale = dl.stale
  coherent : Coherent dl.genMarker dl'.toFlat
  disk : ∀ k, dl'.disk k = lastWritten ws k (dl.disk k)

variable {dl : DiskLayer}

theorem Coherent.get (h : Coherent dl.genMarker dl.toFlat) (k : Key) :
    Follows dl [] (dl.get k).2 := by
  have hsame : Follows dl [] dl := ⟨rfl, rfl, h, fun _ => rfl⟩
  rw [DiskLayer.get]
  split
  · exact hsame
  split
  · exact hsame
  split
  · exact hsame
  split
  · exact hsame
  next c hc =>
  split
  · exact hsame
  refine ⟨rfl, rfl, ?_, fun _ => rfl⟩
  intro c' hc' j hj blob hblob
  cases hc'
  rw [update_apply] at hblob
  split at hblob
  · rename_i hjk
    rw [Key.bytes_injective hjk]
    exact (Option.some.inj hblob).symm
  · exact h c hc j hj blob hblob

section

variable (hm : IsMarker dl.genMarker) (h : Coherent dl.genMarker dl.toFlat)
include hm h

theorem step_follows
    (e : Event) :
    ∃ dl' ws, dl.step e = .ok (dl', ws) ∧ Follows dl ws dl' := by
  cases e with
  | merge buffer => exact ⟨_, _, rfl, rfl, rfl, h, fun _ => rfl⟩
  | flush =>
    rw [DiskLayer.step, writeStates_eq hm]
    exact ⟨_, _, rfl, rfl, rfl, (h.putAll _).1, (h.putAll _).2⟩
  | revert states =>
    rw [DiskLayer.step, writeStates_eq hm]
    exact ⟨_, _, rfl, rfl, rfl, (h.putAll _).1, (h.putAll _).2⟩
  | query k => exact ⟨_, _, rfl, h.get k⟩
  | evict keep =>
    refine ⟨_, _, rfl, rfl, rfl, ?_, fun _ => rfl⟩
    intro c hc k hk blob hblob
    obtain ⟨c₀, hc₀, rfl⟩ := Option.mem_map.mp hc
    change blob ∈ if keep k.bytes then c₀ k.bytes else none at hblob
    split at hblob
    · exact h c₀ hc₀ k hk blob hblob
    · cases hblob

theorem run_follows
    (es : List Event) : ∃ dl' ws, dl.run es = .ok (dl', ws) ∧ Follows dl ws dl' := by
  induction es generalizing dl with
  | nil => exact ⟨dl, [], rfl, rfl, rfl, h, fun _ => rfl⟩
  | cons e es ih =>
    obtain ⟨dl₁, ws, hstep, hmarker, hstale, hcoherent, hdisk⟩ := step_follows hm h e
    obtain ⟨dl₂, ws', hrun, hrest⟩ := ih (by rwa [hmarker]) (by rwa [hmarker])
    refine ⟨dl₂, ws ++ ws', ?_, hrest.genMarker.trans hmarker, hrest.stale.trans hstale, ?_, ?_⟩
    · rw [DiskLayer.run, hstep]
      show (dl₁.run es >>= fun r => return (r.1, ws ++ r.2)) = _
      rw [hrun]
      rfl
    · rw [← hmarker]
      exact hrest.coherent
    · intro k
      rw [hrest.disk, hdisk, lastWritten_append]

end

/-- A layer whose snapshot is generated up to an account, with a slot of it in the buffer. -/
def halfway : DiskLayer where
  disk _ := []
  states := some fun _ => none
  stale := false
  buffer := [(.account zeroHash, [1]), (.slot zeroHash zeroHash, [2])]
  genMarker := some zeroHash.toList

end GoEthereum.Pathdb

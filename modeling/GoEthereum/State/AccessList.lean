import GoEthereum.Common
import GoEthereum.Lib.Collections

/-!
# The access list and the transient storage

`core/state/access_list.go` and `core/state/transient_storage.go`. The access list keeps
the slots of all addresses in one slice of sets; an address has the index of its set, or
-1 as long as it has no slots. `DeleteSlot` cuts the slice at the index of a set that
becomes empty, so deletions have to come in the reverse order of the additions.
-/

namespace GoEthereum.State

open List

variable {address : Address} {m : Finset Hash} {idx : Int}

/-- The run-time panics of a state. -/
inductive Panic where
  | nilObject               -- a method of a nil state object
  | index                   -- index out of range
  | slotChange              -- reverting slot change, address not present in list
  | revision (id : Nat)     -- revision id cannot be reverted
  | refund (gas refund : UInt64)
  | prepare                 -- eip2929 and eip4762 are both activated
deriving DecidableEq

abbrev Storage : Type := Map Hash Hash

/-! ## The access list -/

/-- `accessList`. -/
structure AccessList where
  addresses : Map Address Int
  slots : List (Finset Hash)

def newAccessList : AccessList where
  addresses := ∅
  slots := []

variable {al : AccessList}

namespace AccessList

section

variable (al : AccessList) (address : Address)

/-- `al.slots[idx]`. -/
def slotmap (idx : Int) : Except Panic (Finset Hash) :=
  if idx < 0 then .error .index
  else
    match al.slots[idx.toNat]? with
    | none => .error .index
    | some m => .ok m

def ContainsAddress : Bool :=
  (al.addresses.lookup address).isSome

def Contains (slot : Hash) : Except Panic (Bool × Bool) :=
  match al.addresses.lookup address with
  | none => .ok (false, false)
  | some idx =>
    if idx = -1 then .ok (true, false)
    else
      match al.slotmap idx with
      | .error p => .error p
      | .ok m => .ok (true, decide (slot ∈ m))

def AddAddress : Bool × AccessList :=
  match al.addresses.lookup address with
  | some _ => (false, al)
  | none => (true, { al with addresses := al.addresses.insert address (-1) })

/-- The list with a first slot for an address. -/
def appendSlotmap (slot : Hash) : AccessList where
  addresses := al.addresses.insert address al.slots.length
  slots := al.slots ++ [{slot}]

/-- `AddSlot`: whether the address and the slot were added. -/
def AddSlot (slot : Hash) :
    Except Panic (Bool × Bool × AccessList) :=
  match al.addresses.lookup address with
  | none => .ok (true, true, al.appendSlotmap address slot)
  | some idx =>
    if idx = -1 then .ok (false, true, al.appendSlotmap address slot)
    else
      match al.slotmap idx with
      | .error p => .error p
      | .ok m =>
        if slot ∈ m then .ok (false, false, al)
        else .ok (false, true, { al with slots := al.slots.set idx.toNat (insert slot m) })

def DeleteSlot (slot : Hash) : Except Panic AccessList :=
  match al.addresses.lookup address with
  | none => .error .slotChange
  | some idx =>
    match al.slotmap idx with
    | .error p => .error p
    | .ok m =>
      if m.erase slot = ∅ then
        .ok { addresses := al.addresses.insert address (-1), slots := al.slots.take idx.toNat }
      else .ok { al with slots := al.slots.set idx.toNat (m.erase slot) }

def DeleteAddress : AccessList :=
  { al with addresses := al.addresses.erase address }

/-- The address and the keys of a tuple of a transaction's access list. -/
def addTuple (keys : List Hash) : Except Panic AccessList :=
  keys.foldlM (fun al key => (al.AddSlot address key).map fun r => r.2.2) (al.AddAddress address).2

end

/-- Every index is that of a set with a slot in it. -/
def Valid (al : AccessList) : Prop :=
  ∀ address idx, al.addresses.lookup address = some idx → idx ≠ -1 →
    ∃ m, al.slotmap idx = .ok m ∧ m ≠ ∅

theorem valid_new : newAccessList.Valid := by
  intro address idx h
  cases h

theorem slotmap_ok (h : al.slotmap idx = .ok m) : 0 ≤ idx ∧ al.slots[idx.toNat]? = some m := by
  rw [slotmap] at h
  split at h
  · cases h
  next hneg =>
  split at h
  · cases h
  · rename_i m' hm
    cases h
    exact ⟨not_lt.mp hneg, hm⟩

theorem slotmap_of_get (hidx : 0 ≤ idx) (h : al.slots[idx.toNat]? = some m) :
    al.slotmap idx = .ok m := by
  rw [slotmap, if_neg (not_lt.mpr hidx), h]

theorem Valid.addAddress (h : al.Valid) (address : Address) : (al.AddAddress address).2.Valid := by
  rw [AddAddress]
  split
  · exact h
  intro a idx ha hne
  simp only [Map.lookup_insert_ite] at ha
  split at ha
  · cases ha
    exact absurd rfl hne
  · exact h a idx ha hne

/-- Taking an address out again gives back the list. -/
theorem deleteAddress_addAddress (h : (al.AddAddress address).1 = true) :
    (al.AddAddress address).2.DeleteAddress address = al := by
  rw [AddAddress] at h ⊢
  split at h
  · cases h
  · rename_i hnone
    show AccessList.mk ((al.addresses.insert address (-1)).erase address) al.slots = al
    rw [Map.erase_insert_of_lookup hnone]

theorem Valid.appendSlotmap (h : al.Valid) (address : Address) (slot : Hash) :
    (al.appendSlotmap address slot).Valid := by
  intro a idx ha hne
  rw [AccessList.appendSlotmap, Map.lookup_insert_ite] at ha
  split at ha
  · cases ha
    refine ⟨{slot}, slotmap_of_get (Int.natCast_nonneg _) ?_, Finset.singleton_ne_empty slot⟩
    rw [Int.toNat_natCast]
    exact getElem?_concat_length
  · obtain ⟨m, hm, hmne⟩ := h a idx ha hne
    obtain ⟨hpos, hget⟩ := slotmap_ok hm
    refine ⟨m, slotmap_of_get hpos ?_, hmne⟩
    exact List.getElem?_append_left (List.getElem?_eq_some_iff.mp hget).1 ▸ hget

/-- A first slot is taken out with its set; the address stays. -/
theorem deleteSlot_appendSlotmap (al : AccessList) (address : Address) (slot : Hash) :
    (al.appendSlotmap address slot).DeleteSlot address slot =
      .ok { al with addresses := al.addresses.insert address (-1) } := by
  have hlookup : (al.appendSlotmap address slot).addresses.lookup address =
      some (al.slots.length : Int) := Finmap.lookup_insert _
  have hmap : (al.appendSlotmap address slot).slotmap al.slots.length = .ok {slot} := by
    refine slotmap_of_get (Int.natCast_nonneg _) ?_
    rw [Int.toNat_natCast]
    exact getElem?_concat_length
  rw [DeleteSlot, hlookup]
  simp only [hmap]
  rw [if_pos (by simp), Int.toNat_natCast]
  simp only [AccessList.appendSlotmap, take_left', Finmap.insert_insert]

/-- What `AddSlot` does, and that its changes are taken back exactly by the deletions in
reverse order. -/
theorem Valid.addSlot (h : al.Valid) (address : Address) (slot : Hash) :
    ∃ addrChange slotChange al', al.AddSlot address slot = .ok (addrChange, slotChange, al') ∧
      al'.Valid ∧ (slotChange = false → addrChange = false ∧ al' = al) ∧
      (slotChange = true → ∃ al'', al'.DeleteSlot address slot = .ok al'' ∧
        al = if addrChange then al''.DeleteAddress address else al'') := by
  cases hlookup : al.addresses.lookup address with
  | none =>
    refine ⟨true, true, al.appendSlotmap address slot, ?_, h.appendSlotmap address slot,
      (by intro hf; cases hf), fun _ => ⟨_, deleteSlot_appendSlotmap al address slot, ?_⟩⟩
    · rw [AddSlot, hlookup]
    · show al = AccessList.mk ((al.addresses.insert address (-1)).erase address) al.slots
      rw [Map.erase_insert_of_lookup hlookup]
  | some idx =>
    by_cases hidx : idx = -1
    · refine ⟨false, true, al.appendSlotmap address slot, ?_, h.appendSlotmap address slot,
        (by intro hf; cases hf), fun _ => ⟨_, deleteSlot_appendSlotmap al address slot, ?_⟩⟩
      · rw [AddSlot, hlookup]
        exact if_pos hidx
      · rw [hidx] at hlookup
        show al = AccessList.mk (al.addresses.insert address (-1)) al.slots
        rw [Map.insert_of_lookup hlookup]
    obtain ⟨m, hm, hmne⟩ := h address idx hlookup hidx
    obtain ⟨hpos, hget⟩ := slotmap_ok hm
    by_cases hmem : slot ∈ m
    · refine ⟨false, false, al, ?_, h, fun _ => ⟨rfl, rfl⟩, (by intro hf; cases hf)⟩
      rw [AddSlot, hlookup]
      simp only [if_neg hidx, hm, if_pos hmem]
    have hbound := (List.getElem?_eq_some_iff.mp hget).1
    refine ⟨false, true, { al with slots := al.slots.set idx.toNat (insert slot m) }, ?_, ?_,
      (by intro hf; cases hf), fun _ => ⟨al, ?_, rfl⟩⟩
    · rw [AddSlot, hlookup]
      simp only [if_neg hidx, hm, if_neg hmem]
    · intro a i ha hne
      obtain ⟨m', hm', hmne'⟩ := h a i ha hne
      obtain ⟨hpos', hget'⟩ := slotmap_ok hm'
      by_cases hi : idx.toNat = i.toNat
      · refine ⟨insert slot m, slotmap_of_get hpos' ?_, Finset.insert_ne_empty slot m⟩
        rw [← hi]
        exact getElem?_set_self hbound
      · refine ⟨m', slotmap_of_get hpos' ?_, hmne'⟩
        exact (getElem?_set_ne hi).trans hget'
    · have hmap : AccessList.slotmap
          { al with slots := al.slots.set idx.toNat (insert slot m) } idx =
          .ok (insert slot m) :=
        slotmap_of_get hpos (getElem?_set_self hbound)
      rw [DeleteSlot]
      simp only [hlookup, hmap, Finset.erase_insert hmem, if_neg hmne, set_set]
      have hself : al.slots.set idx.toNat m = al.slots := by
        obtain ⟨_, rfl⟩ := List.getElem?_eq_some_iff.mp hget
        exact set_getElem_self hbound
      rw [hself]

theorem Valid.addTuple {al' : AccessList} (h : al.Valid) {keys : List Hash}
    (heq : al.addTuple address keys = .ok al') : al'.Valid := by
  have hkeys : ∀ (keys : List Hash) {al : AccessList}, al.Valid →
      keys.foldlM (fun al key => (al.AddSlot address key).map fun r => r.2.2) al = .ok al' →
      al'.Valid := by
    intro keys
    induction keys with
    | nil =>
      intro al h heq
      cases heq
      exact h
    | cons key keys ih =>
      intro al h heq
      obtain ⟨_, _, al₁, hadd, hvalid, -, -⟩ := h.addSlot address key
      rw [foldlM_cons, hadd] at heq
      exact ih hvalid heq
  exact hkeys keys (h.addAddress address) heq

end AccessList

/-! ## The transient storage -/

/-- `transientStorage`. -/
abbrev TransientStorage : Type := Map Address Storage

def newTransientStorage : TransientStorage := ∅

namespace TransientStorage

def Get (t : TransientStorage) (addr : Address) (key : Hash) : Hash :=
  match t.lookup addr with
  | none => zeroHash
  | some val => (val.lookup key).getD zeroHash

/-- `Set`: a zero value is a deletion. -/
def Set (t : TransientStorage) (addr : Address) (key value : Hash) : TransientStorage :=
  if value = zeroHash then
    match t.lookup addr with
    | none => t
    | some val =>
      if (val.erase key).keys = ∅ then t.erase addr else t.insert addr (val.erase key)
  else t.insert addr (((t.lookup addr).getD ∅).insert key value)

theorem get_insert (t : TransientStorage) (addr : Address) (val : Storage) (a : Address)
    (k : Hash) : Get (t.insert addr val) a k =
      if a = addr then (val.lookup k).getD zeroHash else Get t a k := by
  simp only [Get, Map.lookup_insert_ite]
  by_cases ha : a = addr
  · simp only [if_pos ha]
  · simp only [if_neg ha]

theorem get_set (t : TransientStorage) (addr : Address) (key value : Hash) (a : Address)
    (k : Hash) : (t.Set addr key value).Get a k =
      if a = addr ∧ k = key then value else t.Get a k := by
  by_cases ha : a = addr
  · subst ha
    rw [Set]
    split
    · rename_i hzero
      cases hval : t.lookup a with
      | none =>
        simp only [Get, hval, hzero, ite_self]
      | some val =>
        simp only
        split
        · rename_i hempty
          have hrest : (val.erase key).lookup k = none := by
            rw [Finmap.lookup_eq_none, ← Finmap.mem_keys, hempty]
            exact Finset.notMem_empty k
          rw [Map.lookup_erase_ite] at hrest
          simp only [Get, Finmap.lookup_erase, hval, true_and, hzero]
          split
          · rfl
          · rename_i hk
            rw [if_neg hk] at hrest
            rw [hrest]
            rfl
        · rw [get_insert, if_pos rfl, Map.lookup_erase_ite]
          simp only [Get, hval, true_and, hzero]
          split
          · rfl
          · rfl
    · rw [get_insert, if_pos rfl, Map.lookup_insert_ite]
      simp only [true_and]
      split
      · rfl
      · rw [Get]
        cases t.lookup a with
        | none => rfl
        | some val => rfl
  · rw [if_neg (fun h => ha h.1), Set]
    split
    · split
      · rfl
      · split
        · rw [Get, Get, Finmap.lookup_erase_ne ha]
        · rw [get_insert, if_neg ha]
    · rw [get_insert, if_neg ha]

end TransientStorage

end GoEthereum.State

import GoEthereum.Rawdb.Layout

/-!
# Reads of a table

What `RetrieveItems` returns from a table whose items are `Laid` out in its files.
-/

namespace GoEthereum.Rawdb

open FreezerTable List

variable {t : FreezerTable} {zs ps : List (Nat × Bytes)}

variable {noSnappy : Bool} {before late mid post pre : Bytes} {done rest : List (Nat × Bytes)}
  {bs : List Bytes} {f g i k : Nat} {st : ReadState}

/-! ## The index -/

/-- The entries `getIndices` returns: where the items before the first end, and the ends of
the items. -/
theorem Laid.getIndices (h : Laid t zs ps) (ha : t.Addressable) (k count : Nat)
    (hcount : 0 < count) (hk : k + count ≤ zs.length) :
    ∃ f g, t.getIndices (t.itemOffset + k) count = .ok (⟨f, (contents f (zs.take k)).length⟩ ::
          ends f (contents f (zs.take k)).length ((zs.drop k).take count)) ∧
      t.tailId ≤ f ∧ (∀ z ∈ zs.take k, z.1 ≤ f) ∧ Steps f (zs.drop k) g ∧ g ≤ t.headId := by
  obtain ⟨g, hsteps, hhead⟩ := h.steps_zs
  have hitems := h.items
  have hbound := h.items_lt ha
  have hfrom : (t.itemOffset + k + (2 ^ 64 - t.itemOffset)) % 2 ^ 64 = k := by
    have hoffset := ha.2.1
    omega
  have hread := readAt_marshalAll (⟨t.tailId, t.itemOffset⟩ :: ends t.tailId 0 zs) k count (by
    rw [length_cons, ends_length]
    omega)
  have hfits : ∀ e ∈ ((⟨t.tailId, t.itemOffset⟩ :: ends t.tailId 0 zs).drop k).take (count + 1),
      e.Fits := fun e he => h.fits ha e (mem_of_mem_drop (mem_of_mem_take he))
  have hall := unmarshalAll_marshalAll hfits
  rw [length_take, length_drop, length_cons, ends_length, Nat.min_eq_left (by omega)] at hall
  rw [← h.index] at hread
  rw [FreezerTable.getIndices, hfrom, hread]
  dsimp only
  rw [hall]
  obtain ⟨count, rfl⟩ := Nat.exists_eq_succ_of_ne_zero hcount.ne'
  cases k with
  | zero =>
    -- the first entry of the index is no end of an item
    cases zs with
    | nil =>
      rw [length_nil] at hk
      omega
    | cons z zs =>
      refine ⟨z.1, g, ?_, ?_, ?_, ?_, hhead⟩
      · show Except.ok (⟨z.1, 0⟩ :: (ends t.tailId 0 (z :: zs)).take (count + 1)) =
          Except.ok (⟨z.1, 0⟩ :: ends z.1 0 ((z :: zs).take (count + 1)))
        rw [← ends_take, take_succ_cons, ends, ends, ite_self, ite_self]
      · exact (Steps.bounds hsteps z mem_cons_self).1
      · intro z' hz'
        cases hz'
      · exact ⟨.inl rfl, hsteps.2⟩
  | succ k =>
    obtain ⟨m, hbefore, hafter, hdrop⟩ := ends_from hsteps (k := k) (by omega)
    refine ⟨m, g, ?_, hbefore.le, fun z hz => (hbefore.bounds z hz).2, hafter, hhead⟩
    rw [drop_succ_cons, hdrop, take_succ_cons, ← ends_take]
    cases hends : ends m (contents m (zs.take (k + 1))).length
        ((zs.drop (k + 1)).take (count + 1)) with
    | nil => rfl
    | cons e es => exact if_neg (Nat.succ_ne_zero k)

/-! ## The data files -/

theorem readAt_middle (pre mid post : Bytes) :
    readAt (pre ++ mid ++ post) pre.length mid.length = .ok mid := by
  rw [readAt]
  by_cases hmid : mid.length = 0
  · rw [if_pos hmid, eq_nil_of_length_eq_zero hmid]
  · rw [if_neg hmid, if_pos (by rw [length_append, length_append]; omega),
      append_assoc, drop_left, take_left]

/-- Reading a part of a file that lies between other parts. -/
theorem Laid.readData (h : Laid t zs ps) (hf : t.tailId ≤ f ∧ f ≤ t.headId)
    (hcontents : contents f zs = pre ++ mid ++ post) (st : ReadState) :
    t.readData f pre.length mid.length st = .ok { st with output := st.output ++ mid } := by
  rw [FreezerTable.readData, if_pos ((h.files f).mpr hf), h.data f hf.1 hf.2]
  simp only [hcontents, Option.getD_some, readAt_middle]

theorem Laid.readUnread (h : Laid t zs ps) (hf : t.tailId ≤ f ∧ f ≤ t.headId)
    (hcontents : contents f zs = pre ++ mid ++ post) (hstart : st.readStart = pre.length)
    (hunread : st.unreadSize = mid.length) :
    t.readUnread f st = .ok { st with output := st.output ++ mid } := by
  rw [FreezerTable.readUnread]
  by_cases hmid : st.unreadSize > 0
  · rw [if_pos hmid]
    have hread := h.readData hf hcontents st
    rwa [← hstart, ← hunread] at hread
  · have hnil : mid = [] := eq_nil_of_length_eq_zero (by omega)
    rw [if_neg hmid, hnil, append_nil]

/-- What the loop of `retrieveItems` has read, and what it has put off: the last bytes of
file `f` up to the next item. -/
structure Deferred (f : Nat) (done : List (Nat × Bytes)) (st : ReadState) (before late : Bytes) :
    Prop where
  contents : contents f done = before ++ late
  start : st.readStart = before.length
  size : st.unreadSize = late.length

/-- The step to the file of the next item. -/
theorem Laid.crossFile (h : Laid t zs ps) (o o' : Nat) (hzs : zs = done ++ rest)
    (hf : t.tailId ≤ f ∧ f ≤ t.headId) (hdone : ∀ z ∈ done, z.1 ≤ f) (hg : g = f ∨ g = f + 1)
    (hst : Deferred f done st before late) :
    ∃ st' before' late', t.crossFile ⟨f, o⟩ ⟨g, o'⟩ st = .ok st' ∧
      Deferred g done st' before' late' ∧ st'.output ++ late' = st.output ++ late ∧
      st'.sizes = st.sizes ∧ st'.totalSize = st.totalSize := by
  rw [FreezerTable.crossFile]
  by_cases hfile : g ≠ f
  · have hcontents : contents f zs = before ++ late ++ contents f rest := by
      rw [hzs, contents_append, hst.contents]
    rw [if_pos hfile, h.readUnread hf hcontents hst.start hst.size]
    refine ⟨_, [], [], rfl, ⟨?_, rfl, rfl⟩, append_nil _, rfl, rfl⟩
    refine contents_eq_nil fun z hz => ?_
    have hle := hdone z hz
    omega
  · push Not at hfile
    subst hfile
    rw [if_neg fun hne => hne rfl]
    exact ⟨st, before, late, rfl, hst, rfl, rfl, rfl⟩

/-- The size of an item, from the ends of it and of the item before. -/
theorem bounds_size {o n : Nat} (ho : (if g = f then o else 0) + n < 2 ^ 32) :
    let b := (⟨f, o⟩ : IndexEntry).bounds ⟨g, (if g = f then o else 0) + n⟩
    (b.2.1 + (2 ^ 32 - b.1)) % 2 ^ 32 = n := by
  show ((IndexEntry.bounds _ _).2.1 + (2 ^ 32 - (IndexEntry.bounds _ _).1)) % 2 ^ 32 = n
  rw [IndexEntry.bounds]
  by_cases hfile : g = f
  · subst hfile
    rw [if_pos rfl] at ho ⊢
    rw [if_neg fun hne => hne rfl]
    show (o + n + (2 ^ 32 - o)) % 2 ^ 32 = n
    omega
  · rw [if_neg hfile] at ho ⊢
    rw [if_pos fun heq => hfile heq.symm]
    show (0 + n + (2 ^ 32 - 0)) % 2 ^ 32 = n
    omega

/-- The loop of `retrieveItems` reads the first of the items, at least one of them, and all
if there is no limit. -/
theorem Laid.readLoop (h : Laid t zs ps) (maxBytes : Nat) {ws : List (Nat × Bytes)}
    (hzs : zs = done ++ (ws ++ rest)) (hne : ws ≠ []) (hf : t.tailId ≤ f)
    (hdone : ∀ z ∈ done, z.1 ≤ f) (hsteps : Steps f ws g) (hg : g ≤ t.headId)
    (hst : Deferred f done st before late) :
    ∃ k st', t.readLoop maxBytes i (⟨f, (contents f done).length⟩ ::
        ends f (contents f done).length ws) st = .ok st' ∧
      st'.output = st.output ++ late ++ (ws.take k).flatMap Prod.snd ∧
      st'.sizes = st.sizes ++ (ws.take k).map (fun z => z.2.length) ∧
      (i = 0 → 1 ≤ k) ∧ k ≤ ws.length ∧ (maxBytes = 0 → k = ws.length) := by
  -- the induction is on the items left; what was done grows
  induction ws generalizing f i done st before late with
  | nil => exact absurd rfl hne
  | cons z ws ih =>
    obtain ⟨file, y⟩ := z
    obtain ⟨hnext, hsteps⟩ := hsteps
    have hnext' : file = f ∨ file = f + 1 := hnext.imp id And.left
    have hle : f ≤ file := by omega
    have hfile : t.tailId ≤ file ∧ file ≤ t.headId := ⟨hf.trans hle, hsteps.le.trans hg⟩
    obtain ⟨st₁, before₁, late₁, hcross, hst₁, houtput, hsizes, htotal⟩ :=
      h.crossFile (contents f done).length
        ((if file = f then (contents f done).length else 0) + y.length) hzs
        ⟨hf, hle.trans hfile.2⟩ hdone hnext' hst
    -- the item ends where the contents with it end
    have hcontents : contents file (done ++ [(file, y)]) = before₁ ++ (late₁ ++ y) := by
      rw [contents_append, hst₁.contents, contents_cons, if_pos rfl]
      show before₁ ++ late₁ ++ (y ++ []) = _
      rw [append_nil, append_assoc]
    have hzs' : zs = done ++ [(file, y)] ++ (ws ++ rest) := by
      rw [hzs, append_assoc]
      rfl
    have hend : (if file = f then (contents f done).length else 0) + y.length =
        (contents file (done ++ [(file, y)])).length := by
      rw [contents_append, contents_cons, if_pos rfl, length_append, length_append]
      show _ = _ + (y.length + 0)
      by_cases heq : file = f
      · rw [if_pos heq, heq, Nat.add_zero]
      · rw [if_neg heq, contents_eq_nil fun z hz => by
          have hz' := hdone z hz
          omega]
        rfl
    have hsize : (if file = f then (contents f done).length else 0) + y.length < 2 ^ 32 := by
      have hbound := h.sizes file
      rw [contents_append, length_append, hzs', contents_append, length_append] at hbound
      omega
    have hst₂ : Deferred file (done ++ [(file, y)]) { st₁ with
          unreadSize := st₁.unreadSize + y.length
          totalSize := st₁.totalSize + y.length
          sizes := st₁.sizes ++ [y.length] } before₁ (late₁ ++ y) := by
      refine ⟨hcontents, hst₁.start, ?_⟩
      show st₁.unreadSize + y.length = _
      rw [hst₁.size, length_append]
    have hread : contents file zs = before₁ ++ (late₁ ++ y) ++ contents file (ws ++ rest) := by
      rw [hzs', contents_append, hcontents]
    rw [ends, FreezerTable.readLoop]
    dsimp only
    rw [bounds_size hsize, hcross]
    dsimp only
    by_cases hlimit : i > 0 ∧ st₁.totalSize + y.length > maxBytes ∧ maxBytes ≠ 0
    · have hlate : contents file zs = before₁ ++ late₁ ++ (y ++ contents file (ws ++ rest)) := by
        rw [hread, ← append_assoc, ← append_assoc]
      rw [if_pos hlimit, h.readUnread hfile hlate hst₁.start hst₁.size]
      refine ⟨0, _, rfl, ?_, ?_, ?_, Nat.zero_le _, fun hzero => absurd hzero hlimit.2.2⟩
      · show st₁.output ++ late₁ = st.output ++ late ++ []
        rw [houtput, append_nil]
      · show st₁.sizes = st.sizes ++ []
        rw [hsizes, append_nil]
      · intro hi
        omega
    · rw [if_neg hlimit]
      by_cases hlast : ends file ((if file = f then (contents f done).length else 0) + y.length)
          ws = [] ∨ (st₁.totalSize + y.length > maxBytes ∧ maxBytes ≠ 0)
      · have hnow := h.readData hfile hread { st₁ with
            unreadSize := st₁.unreadSize + y.length
            totalSize := st₁.totalSize + y.length
            sizes := st₁.sizes ++ [y.length] }
        rw [← hst₂.start, ← hst₂.size] at hnow
        rw [if_pos hlast, hnow]
        refine ⟨1, _, rfl, ?_, ?_, fun _ => le_rfl, Nat.succ_le_succ (Nat.zero_le _), ?_⟩
        · show st₁.output ++ (late₁ ++ y) = st.output ++ late ++ (y ++ [])
          rw [append_nil, ← append_assoc, houtput]
        · show st₁.sizes ++ [y.length] = st.sizes ++ [y.length]
          rw [hsizes]
        · intro hmax
          rcases hlast with hnil | hover
          · have hlen := congrArg length hnil
            rw [ends_length] at hlen
            rw [length_cons, hlen]
            rfl
          · exact absurd hmax hover.2
      · rw [if_neg hlast]
        push Not at hlast
        have hws : ws ≠ [] := by
          rintro rfl
          exact hlast.1 rfl
        have hdone' : ∀ z ∈ done ++ [(file, y)], z.1 ≤ file := by
          intro z hz
          rcases mem_append.mp hz with hz | hz
          · exact (hdone z hz).trans hle
          · rw [mem_singleton.mp hz]
        obtain ⟨k, st', hloop, hout, hszs, -, hk, hzero⟩ :=
          ih (i := i + 1) hzs' hws hfile.1 hdone' hsteps hst₂
        rw [← hend] at hloop
        refine ⟨k + 1, st', hloop, ?_, ?_, ?_, ?_, ?_⟩
        · rw [hout, take_succ_cons, flatMap_cons]
          show st₁.output ++ (late₁ ++ y) ++ _ = _
          rw [← append_assoc, houtput, append_assoc _ y]
        · rw [hszs, take_succ_cons, map_cons]
          show st₁.sizes ++ [y.length] ++ _ = _
          rw [hsizes, append_assoc]
          rfl
        · exact fun _ => Nat.succ_le_succ (Nat.zero_le _)
        · exact Nat.succ_le_succ hk
        · intro hmax
          rw [hzero hmax, length_cons]

/-! ## Items -/

variable {sn : Snappy}

/-- Out of range, whatever is asked for. -/
theorem Laid.retrieveItems_outOfBounds (h : Laid t zs ps) {start count : Nat} (maxBytes : Nat)
    (hout : t.items ≤ start ∨ t.itemHidden > start ∨ count = 0) :
    t.retrieveItems start count maxBytes = .error .errOutOfBounds := by
  rw [FreezerTable.retrieveItems, h.opened, if_neg Bool.false_ne_true, if_pos hout]

/-- The bytes and the sizes that `retrieveItems` returns are those of the first items. -/
theorem Laid.retrieveItems (h : Laid t zs ps) (ha : t.Addressable) {k count maxBytes : Nat}
    (hk : k < zs.length) (hhidden : t.itemHidden ≤ t.itemOffset + k) (hcount : 0 < count)
    (hsum : t.itemOffset + k + count < 2 ^ 64) (hmax : maxBytes ≤ maxAlloc) :
    ∃ j, t.retrieveItems (t.itemOffset + k) count maxBytes =
        .ok (((zs.drop k).take j).flatMap Prod.snd, ((zs.drop k).take j).map fun z => z.2.length) ∧
      1 ≤ j ∧ j ≤ min count (zs.length - k) ∧
      (maxBytes = 0 → j = min count (zs.length - k)) := by
  have hitems := h.items
  have htrim : (if (t.itemOffset + k + count) % 2 ^ 64 > t.items then
      t.items - (t.itemOffset + k) else count) = min count (zs.length - k) := by
    rw [Nat.mod_eq_of_lt hsum]
    by_cases hover : t.itemOffset + k + count > t.items
    · rw [if_pos hover]
      omega
    · rw [if_neg hover]
      omega
  obtain ⟨f, g, hindices, hf, hdone, hsteps, hg⟩ :=
    h.getIndices ha k (min count (zs.length - k)) (by omega) (by omega)
  have hzs : zs = zs.take k ++ ((zs.drop k).take (min count (zs.length - k)) ++
      (zs.drop k).drop (min count (zs.length - k))) := by
    rw [take_append_drop, take_append_drop]
  have hws : (zs.drop k).take (min count (zs.length - k)) ≠ [] := by
    intro hnil
    have hlen := congrArg length hnil
    rw [length_take, length_drop, length_nil] at hlen
    omega
  have hsteps' := hsteps
  rw [← take_append_drop (min count (zs.length - k)) (zs.drop k)] at hsteps'
  obtain ⟨m, hread, hrest⟩ := steps_append.mp hsteps'
  have hfirst : Deferred f (zs.take k)
      ⟨[], [], 0, (contents f (zs.take k)).length, 0⟩ (contents f (zs.take k)) [] :=
    ⟨(append_nil _).symm, rfl, rfl⟩
  obtain ⟨j, st, hloop, houtput, hsizes, hone, hle, hall⟩ :=
    h.readLoop maxBytes (i := 0) hzs hws hf hdone hread (hrest.le.trans hg) hfirst
  have hlen : ((zs.drop k).take (min count (zs.length - k))).length =
      min count (zs.length - k) := by
    rw [length_take, length_drop]
    omega
  rw [hlen] at hle hall
  rw [take_take, Nat.min_eq_left hle] at houtput hsizes
  refine ⟨j, ?_, hone rfl, hle, hall⟩
  rw [FreezerTable.retrieveItems, h.opened, if_neg Bool.false_ne_true, if_neg (by omega)]
  dsimp only
  rw [htrim, if_neg (Nat.not_lt.mpr hmax), hindices]
  simp only [head?_cons, Option.map_some, Option.getD_some, hloop, houtput, hsizes, nil_append]

/-- The stored form of an item decodes to it. -/
theorem Stores.decode (hsn : sn.Lossless) {blob data : Bytes} (h : Stores sn noSnappy blob data) :
    (if noSnappy then some data else sn.decode data) = some blob ∧
      (if noSnappy then data.length else sn.decodedLen data) = blob.length := by
  cases noSnappy with
  | true =>
    cases h
    exact ⟨rfl, rfl⟩
  | false => exact ⟨hsn.decode h, hsn.decodedLen h⟩

/-- The loop of `RetrieveItems` returns the first of the items: the first one in any case,
and no other beyond the limit. -/
theorem sliceLoop_stored (hsn : sn.Lossless) (maxBytes : Nat) {ds : List Bytes}
    (hstored : List.Forall₂ (Stores sn noSnappy) bs ds) (before : Bytes) {diskData : Bytes}
    (hdata : diskData = before ++ ds.flatten) (i outputSize : Nat) :
    ∃ j, sliceLoop sn noSnappy maxBytes diskData i (ds.map length) before.length
        outputSize = .ok (bs.take j) ∧
      j ≤ bs.length ∧ (i = 0 → bs ≠ [] → 1 ≤ j) ∧ (maxBytes = 0 → j = bs.length) ∧
      (maxBytes ≠ 0 → j = 0 ∨ i = 0 ∧ j = 1 ∨
        outputSize + ((bs.take j).map length).sum ≤ maxBytes) := by
  induction hstored generalizing before i outputSize with
  | nil =>
    refine ⟨0, rfl, le_rfl, fun _ hne => absurd rfl hne, fun _ => rfl, fun _ => .inl rfl⟩
  | @cons b d bs ds hb hrest ih =>
    obtain ⟨hdecode, hlen⟩ := hb.decode hsn
    have hitem : (diskData.drop before.length).take d.length = d := by
      rw [hdata, drop_left, flatten_cons, take_left]
    rw [map_cons, sliceLoop, hitem, hlen, hdecode]
    by_cases hlimit : i > 0 ∧ maxBytes ≠ 0 ∧ outputSize + b.length > maxBytes
    · rw [if_pos hlimit]
      refine ⟨0, rfl, Nat.zero_le _, ?_, fun hzero => absurd hzero hlimit.2.1, fun _ => .inl rfl⟩
      intro hi
      omega
    rw [if_neg hlimit]
    have hdata' : diskData = (before ++ d) ++ ds.flatten := by
      rw [hdata, flatten_cons, append_assoc]
    obtain ⟨j, hloop, hj, -, hzero, hsize⟩ :=
      ih (before ++ d) hdata' (i + 1) (outputSize + b.length)
    rw [length_append] at hloop
    rw [hloop]
    refine ⟨j + 1, rfl, Nat.succ_le_succ hj, fun _ _ => Nat.succ_le_succ (Nat.zero_le _), ?_, ?_⟩
    · intro hmax
      rw [hzero hmax, length_cons]
    · intro hmax
      rw [take_succ_cons, map_cons, sum_cons]
      rcases hsize hmax with hnone | ⟨hi, -⟩ | hsum
      · subst hnone
        rw [take_zero, map_nil, sum_nil]
        by_cases hi : i = 0
        · exact .inr (.inl ⟨hi, rfl⟩)
        · refine .inr (.inr ?_)
          have hwithin : ¬ outputSize + b.length > maxBytes := fun hover =>
            hlimit ⟨Nat.pos_of_ne_zero hi, hmax, hover⟩
          omega
      · omega
      · refine .inr (.inr ?_)
        omega

/-- `RetrieveItems` returns a run of consecutive items, of at least one. -/
theorem Laid.RetrieveItems (h : Laid t zs ps) (ha : t.Addressable) (hsn : sn.Lossless)
    (hstored : List.Forall₂ (Stores sn t.noSnappy) bs (zs.map Prod.snd)) (count maxBytes : Nat)
    (hk : k < zs.length) (hhidden : t.itemHidden ≤ t.itemOffset + k) (hcount : 0 < count)
    (hsum : t.itemOffset + k + count < 2 ^ 64) (hcap : count * 24 ≤ maxAlloc)
    (hmax : maxBytes ≤ maxAlloc) :
    ∃ j, t.RetrieveItems sn (t.itemOffset + k) count maxBytes = .ok ((bs.drop k).take j) ∧
      1 ≤ j ∧ j ≤ min count (zs.length - k) ∧
      (maxBytes ≠ 0 → j = 1 ∨ (((bs.drop k).take j).map length).sum ≤ maxBytes) ∧
      (maxBytes = 0 → j = min count (zs.length - k)) := by
  obtain ⟨n, hread, hone, hle, hall⟩ := h.retrieveItems ha hk hhidden hcount hsum hmax
  have hlen : bs.length = zs.length := by
    rw [hstored.length_eq, length_map]
  have hstored' : List.Forall₂ (Stores sn t.noSnappy) ((bs.drop k).take n)
      (((zs.drop k).take n).map Prod.snd) := by
    have hdrop := forall₂_take n (forall₂_drop k hstored)
    rwa [← map_drop, ← map_take] at hdrop
  obtain ⟨j, hslice, hj, hpos, hzero, hsize⟩ :=
    sliceLoop_stored hsn maxBytes hstored' [] rfl 0 0
  have hlen' : ((bs.drop k).take n).length = n := by
    rw [length_take, length_drop, hlen]
    omega
  rw [hlen'] at hj hzero
  rw [take_take, Nat.min_eq_left hj] at hslice hsize
  have hpos' : 1 ≤ j := hpos rfl fun hnil => by
    rw [hnil, length_nil] at hlen'
    omega
  refine ⟨j, ?_, hpos', hj.trans hle, ?_, fun hmax => (hzero hmax).trans (hall hmax)⟩
  · rw [FreezerTable.RetrieveItems, hread]
    dsimp only
    rw [if_neg (Nat.not_lt.mpr hcap)]
    rw [map_map] at hslice
    exact hslice
  · intro hne
    rcases hsize hne with hnone | ⟨-, hsingle⟩ | hbound
    · omega
    · exact .inl hsingle
    · rw [Nat.zero_add] at hbound
      exact .inr hbound

/-- `Retrieve` returns the item, if it is neither hidden nor beyond the head. -/
theorem Laid.Retrieve (h : Laid t zs ps) (ha : t.Addressable) (hsn : sn.Lossless)
    (hstored : List.Forall₂ (Stores sn t.noSnappy) bs (zs.map Prod.snd)) {b : Bytes}
    (hb : bs[k]? = some b) (hhidden : t.itemHidden ≤ t.itemOffset + k) :
    t.Retrieve sn (t.itemOffset + k) = .ok b := by
  obtain ⟨hlt, rfl⟩ := List.getElem?_eq_some_iff.mp hb
  have hk : k < zs.length := by
    rwa [hstored.length_eq, length_map] at hlt
  have hitems := h.items
  have hbound := h.items_lt ha
  obtain ⟨j, hread, hone, hle, -, -⟩ := h.RetrieveItems ha hsn hstored 1 0 hk hhidden
    Nat.one_pos (by omega) (by decide) (by decide)
  have hj : j = 1 := le_antisymm (hle.trans (Nat.min_le_left _ _)) hone
  subst hj
  rw [FreezerTable.Retrieve, hread, drop_eq_getElem_cons hlt]
  rfl

theorem Laid.Retrieve_outOfBounds (h : Laid t zs ps) (hout : i < t.itemHidden ∨ t.items ≤ i) :
    t.Retrieve sn i = .error .errOutOfBounds := by
  rw [FreezerTable.Retrieve, FreezerTable.RetrieveItems,
    h.retrieveItems_outOfBounds 0 (hout.symm.imp id .inl)]

/-- `sizeNolock` does not fail. -/
theorem Laid.sizeNolock (h : Laid t zs ps) (ha : t.Addressable) : ∃ n, t.sizeNolock = .ok n := by
  have hhidden : ∃ n, t.sizeHidden = .ok n := by
    rw [FreezerTable.sizeHidden]
    by_cases hle : t.itemHidden ≤ t.itemOffset
    · rw [if_pos hle]
      exact ⟨_, rfl⟩
    rw [if_neg hle]
    have hitems := h.items
    have hbounds := h.hidden
    obtain ⟨f, g, hindices, -⟩ := h.getIndices ha (t.itemHidden - 1 - t.itemOffset) 1
      Nat.one_pos (by omega)
    rw [show t.itemOffset + (t.itemHidden - 1 - t.itemOffset) = t.itemHidden - 1 by omega]
      at hindices
    rw [hindices]
    exact ⟨_, rfl⟩
  obtain ⟨n, hn⟩ := hhidden
  rw [FreezerTable.sizeNolock, hn]
  exact ⟨_, rfl⟩

end GoEthereum.Rawdb

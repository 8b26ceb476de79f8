import GoEthereum.Consensus.CliqueEngine

/-!
# The beacon engine

`consensus/beacon/consensus.go`. A header with a positive difficulty is left to the engine from
before the merge, ethash or Clique. `VerifyHeaders` splits a batch at the first header without
difficulty, has the two parts verified at the same time, and puts the results together in
order. `VerifyHeader` also checks that the chain does not go back to a positive difficulty,
which in `VerifyHeaders` no one does for the first header of a batch.
-/

namespace GoEthereum.Consensus

open List

variable {cr : Crypto}

/-- The engines from before the merge. -/
inductive EthOne where
  | ethash (e : Ethash)
  | clique (c : CliqueEngine)

/-- `uint64(time.Now().Unix())`. -/
def unixTime (now : Int) : Nat := (now % 2 ^ 64).toNat

namespace EthOne

def VerifyHeader (e : EthOne) (chain : Chain cr) (now : Int) (header : Header) :
    Except Err EthOne :=
  match e with
  | .ethash e => (e.VerifyHeader chain now header).map fun _ => .ethash e
  | .clique c => (c.VerifyHeader chain (unixTime now) header).map .clique

def VerifyHeaders (e : EthOne) (chain : Chain cr) (now : Int) (headers : List Header) :
    List (Except Err Unit) :=
  match e with
  | .ethash e => e.VerifyHeaders chain now headers
  | .clique c => c.VerifyHeaders chain (unixTime now) headers

end EthOne

namespace Beacon

def beaconNonce : Bytes := replicate 8 0

def verifyHeader (config : ChainConfig) (header parent : Header) : Except Err Unit :=
  if header.extra.length > maximumExtraDataSize then .error (.extraTooLong header.extra.length)
  else if header.nonce ≠ beaconNonce then .error .errInvalidNonce
  else if header.uncleHash ≠ Clique.emptyUncleHash then .error .errInvalidUncleHash
  else if header.time ≤ parent.time then .error .errInvalidTimestamp
  else if header.difficulty ≠ 0 then .error (.invalidDifficulty header.difficulty 0)
  else if header.gasLimit > maxGasLimit then .error (.invalidGasLimit header.gasLimit)
  else if header.gasUsed > header.gasLimit then
    .error (.invalidGasUsed header.gasUsed header.gasLimit)
  else if (header.number : Int) - parent.number ≠ 1 then .error .ErrInvalidNumber
  else
    match verifyEIP1559Header config parent header with
    | .error err => .error err
    | .ok () =>
      let shanghai := config.isShanghai header.number header.time
      if shanghai ∧ header.withdrawalsHash = none then .error .missingWithdrawalsHash
      else if ¬ shanghai ∧ header.withdrawalsHash ≠ none then .error .invalidWithdrawalsHash
      else if !config.isCancun header.number header.time then verifyNoCancunFields header
      else if header.parentBeaconRoot = none then .error .missingBeaconRoot
      else verifyEIP4844Header config parent header

def VerifyHeader (ethone : EthOne) (chain : Chain cr) (now : Int) (header : Header) :
    Except Err EthOne :=
  match chain.getHeader header.parentHash (UInt64.ofNat header.number - 1) with
  | none => .error .ErrUnknownAncestor
  | some parent =>
    if parent.difficulty = 0 ∧ header.difficulty > 0 then .error .ErrInvalidTerminalBlock
    else if header.difficulty > 0 then ethone.VerifyHeader chain now header
    else (verifyHeader chain.config header parent).map fun _ => ethone

def splitHeaders (headers : List Header) : List Header × List Header :=
  headers.span fun h => decide (h.difficulty ≠ 0)

/-- The loop of `verifyHeaders` after a header. -/
def verifyRest (cr : Crypto) (config : ChainConfig) : Header → List Header → List (Except Err Unit)
  | _, [] => []
  | prev, header :: headers =>
    (if prev.hash cr = header.parentHash then verifyHeader config header prev
    else .error .ErrUnknownAncestor) :: verifyRest cr config header headers

def verifyHeaders (chain : Chain cr) (headers : List Header) (ancestor : Option Header) :
    List (Except Err Unit) :=
  match headers with
  | [] => []
  | header :: headers =>
    let parent :=
      match ancestor with
      | some ancestor => some ancestor
      | none => chain.getHeader header.parentHash (UInt64.ofNat header.number - 1)
    (match parent with
    | none => .error .ErrUnknownAncestor
    | some parent => verifyHeader chain.config header parent) ::
      verifyRest cr chain.config header headers

/-! ## Collecting the results -/

/-- A result of the old or of the new engine. -/
inductive Event (α : Type) where
  | old (r : α)
  | new (r : α)

/-- The variables of the collecting goroutine: `errors` and `done` are the slots. -/
structure Collector (α : Type) where
  slots : List (Option α)
  old : Nat
  new : Nat
  out : Nat
  results : List α

section Collecting

variable {α : Type}

/-- The inner loop: what is done is sent, in order. -/
def Collector.flush : Nat → Collector α → Collector α
  | 0, c => c
  | fuel + 1, c =>
    match c.slots[c.out]? with
    | some (some r) =>
      Collector.flush fuel { c with out := c.out + 1, results := c.results ++ [r] }
    | _ => c

/-- The cases of the `select`. -/
def Collector.receive (c : Collector α) : Event α → Collector α
  | .old r =>
    { c with
      slots :=
        match c.slots[c.old]? with
        | some none => c.slots.set c.old (some r)
        | _ => c.slots
      old := c.old + 1 }
  | .new r => { c with slots := c.slots.set c.new (some r), new := c.new + 1 }

/-- The outer loop, over the results in the order in which they come in. -/
def Collector.collect : List (Event α) → Collector α → List α
  | [], c => (c.flush c.slots.length).results
  | e :: events, c =>
    let c := c.flush c.slots.length
    if c.out = c.slots.length then c.results else Collector.collect events (c.receive e)

/-- Two lists of results that come in one after the other, in any order between the two. -/
inductive Interleaves : List α → List α → List (Event α) → Prop where
  | nil : Interleaves [] [] []
  | old (r : α) {olds news : List α} {events : List (Event α)} :
      Interleaves olds news events → Interleaves (r :: olds) news (.old r :: events)
  | new (r : α) {olds news : List α} {events : List (Event α)} :
      Interleaves olds news events → Interleaves olds (r :: news) (.new r :: events)

theorem flush_ready {ready : List α} {rest : List (Option α)}
    (hrest : ∀ r, rest.head? ≠ some (some r)) {fuel : Nat} {c : Collector α}
    (hslots : c.slots = ready.map some ++ rest) (hout : c.out ≤ ready.length)
    (hresults : c.results = ready.take c.out) (hfuel : ready.length ≤ c.out + fuel) :
    c.flush fuel = { c with out := ready.length, results := ready } := by
  induction fuel generalizing c with
  | zero =>
    have hall : c.out = ready.length := by omega
    rw [hall, take_length] at hresults
    rw [Collector.flush, ← hall, ← hresults]
  | succ fuel ih =>
    rw [Collector.flush]
    by_cases hlt : c.out < ready.length
    · have hslot : c.slots[c.out]? = some (some ready[c.out]) := by
        rw [hslots, getElem?_append_left (by rw [length_map]; exact hlt),
          getElem?_map, getElem?_eq_getElem hlt]
        rfl
      rw [hslot]
      refine ih hslots hlt ?_ (by show _ ≤ c.out + 1 + fuel; omega)
      show c.results ++ [ready[c.out]] = ready.take (c.out + 1)
      rw [hresults, take_append_getElem hlt]
    · have hall : c.out = ready.length := by omega
      have hslot : c.slots[c.out]? = rest.head? := by
        rw [hslots, hall, getElem?_append_right (by rw [length_map]),
          length_map, Nat.sub_self, head?_eq_getElem?]
      rw [hslot]
      rw [hall, take_length] at hresults
      split
      · next r hr => exact absurd hr (hrest r)
      · rw [← hall, ← hresults]

/-- The slots when some results of each engine have come in. -/
structure Collecting (olds olds' news news' : List α) (c : Collector α) : Prop where
  slots : c.slots = olds.map some ++ (olds'.map (fun _ => none) ++
    (news.map some ++ news'.map fun _ => none))
  old : c.old = olds.length
  new : c.new = olds.length + olds'.length + news.length

/-- What can be sent. -/
def readyOf (olds olds' news : List α) : List α :=
  match olds' with
  | [] => olds ++ news
  | _ :: _ => olds

theorem Collecting.split {olds olds' news news' : List α} {c : Collector α}
    (h : Collecting olds olds' news news' c) :
    ∃ rest, c.slots = (readyOf olds olds' news).map some ++ rest ∧
      ∀ r, rest.head? ≠ some (some r) := by
  cases olds' with
  | nil =>
    refine ⟨news'.map fun _ => none, ?_, ?_⟩
    · rw [h.slots, readyOf, map_nil, nil_append, map_append, append_assoc]
    · intro r hr
      cases news' with
      | nil => cases hr
      | cons x news' => cases hr
  | cons x olds' =>
    refine ⟨_, h.slots, ?_⟩
    intro r hr
    cases hr

theorem Collecting.flush {olds olds' news news' : List α} {c : Collector α}
    (h : Collecting olds olds' news news' c) (hout : c.out ≤ (readyOf olds olds' news).length)
    (hresults : c.results = (readyOf olds olds' news).take c.out) :
    c.flush c.slots.length = { c with
      out := (readyOf olds olds' news).length
      results := readyOf olds olds' news } := by
  obtain ⟨rest, hslots, hrest⟩ := h.split
  refine flush_ready hrest hslots hout hresults ?_
  rw [hslots, length_append, length_map]
  omega

theorem Collecting.receive_old {olds olds' news news' : List α} {r : α} {c : Collector α}
    (h : Collecting olds (r :: olds') news news' c) :
    Collecting (olds ++ [r]) olds' news news' (c.receive (.old r)) := by
  have hslot : c.slots[c.old]? = some none := by
    rw [h.slots, h.old, getElem?_append_right (by rw [length_map]), length_map, Nat.sub_self]
    rfl
  refine ⟨?_, ?_, ?_⟩
  · show (match c.slots[c.old]? with
      | some none => c.slots.set c.old (some r)
      | _ => c.slots) = _
    rw [hslot]
    dsimp only
    rw [h.slots, h.old, set_append_right _ _ (by rw [length_map]), length_map,
      Nat.sub_self, map_append, append_assoc]
    rfl
  · show c.old + 1 = _
    rw [h.old, length_append, length_singleton]
  · show c.new = _
    rw [h.new, length_append, length_singleton, length_cons]
    omega

theorem Collecting.receive_new {olds olds' news news' : List α} {r : α} {c : Collector α}
    (h : Collecting olds olds' news (r :: news') c) :
    Collecting olds olds' (news ++ [r]) news' (c.receive (.new r)) := by
  refine ⟨?_, h.old, ?_⟩
  · show c.slots.set c.new (some r) = _
    rw [h.slots, h.new, set_append_right _ _ (by rw [length_map]; omega),
      length_map, set_append_right _ _ (by rw [length_map]; omega),
      length_map, set_append_right _ _ (by rw [length_map]; omega),
      length_map, map_append, append_assoc]
    rw [show olds.length + olds'.length + news.length - olds.length - olds'.length -
      news.length = 0 by omega]
    rfl
  · show c.new + 1 = _
    rw [h.new, length_append, length_singleton]
    omega

/-- The results come out in order, whatever the order in which they came in. -/
theorem Collecting.collect {olds olds' news news' : List α} {events : List (Event α)}
    (hevents : Interleaves olds' news' events) {c : Collector α}
    (h : Collecting olds olds' news news' c) (hout : c.out ≤ (readyOf olds olds' news).length)
    (hresults : c.results = (readyOf olds olds' news).take c.out) :
    c.collect events = olds ++ olds' ++ (news ++ news') := by
  induction hevents generalizing olds news c with
  | nil =>
    rw [Collector.collect, h.flush hout hresults]
    show olds ++ news = _
    rw [append_nil, append_nil]
  | @old r olds' news' events hevents ih =>
    have hflush := h.flush hout hresults
    have hfull : (readyOf olds (r :: olds') news).length ≠ c.slots.length := by
      rw [h.slots, readyOf]
      simp only [length_append, length_map, length_cons]
      omega
    rw [Collector.collect, hflush]
    dsimp only
    rw [if_neg hfull]
    have hnext := Collecting.receive_old (show Collecting olds (r :: olds') news news' { c with
        out := (readyOf olds (r :: olds') news).length
        results := readyOf olds (r :: olds') news } from ⟨h.slots, h.old, h.new⟩)
    rw [ih hnext ?_ ?_, append_assoc, append_assoc, append_assoc]
    · rfl
    · show olds.length ≤ _
      cases olds' with
      | nil =>
        rw [readyOf, length_append, length_append]
        omega
      | cons x olds' =>
        rw [readyOf, length_append]
        omega
    · show olds = take olds.length _
      cases olds' with
      | nil => rw [readyOf, append_assoc, take_left]
      | cons x olds' => rw [readyOf, take_left]
  | @new r olds' news' events hevents ih =>
    have hflush := h.flush hout hresults
    have hfull : (readyOf olds olds' news).length ≠ c.slots.length := by
      rw [h.slots]
      cases olds' with
      | nil =>
        rw [readyOf]
        simp only [length_append, length_map, length_cons, length_nil]
        omega
      | cons x olds' =>
        rw [readyOf]
        simp only [length_append, length_map, length_cons]
        omega
    rw [Collector.collect, hflush]
    dsimp only
    rw [if_neg hfull]
    have hnext := Collecting.receive_new (show Collecting olds olds' news (r :: news') { c with
        out := (readyOf olds olds' news).length
        results := readyOf olds olds' news } from ⟨h.slots, h.old, h.new⟩)
    rw [ih hnext ?_ ?_, append_assoc news]
    · rfl
    · show (readyOf olds olds' news).length ≤ _
      cases olds' with
      | nil =>
        rw [readyOf, readyOf, length_append, length_append, length_append]
        omega
      | cons x olds' => exact le_refl _
    · show readyOf olds olds' news = take (readyOf olds olds' news).length _
      cases olds' with
      | nil => rw [readyOf, readyOf, ← append_assoc, take_left]
      | cons x olds' => rw [readyOf, readyOf, take_length]

/-- The variables at the start, for so many results of the old engine. -/
def Collector.start (α : Type) (headers preHeaders : Nat) : Collector α where
  slots := replicate headers none
  old := 0
  new := preHeaders
  out := 0
  results := []

theorem collect_start {olds news : List α} {events : List (Event α)}
    (hevents : Interleaves olds news events) :
    (Collector.start α (olds.length + news.length) olds.length).collect events = olds ++ news := by
  refine @Collecting.collect α [] olds [] news events hevents _ ⟨?_, rfl, ?_⟩ (Nat.zero_le _) rfl
  · show replicate (olds.length + news.length) none =
      olds.map (fun _ => none) ++ news.map fun _ => none
    rw [map_const', map_const', replicate_add]
  · show olds.length = 0 + olds.length + 0
    omega

end Collecting

/-- `VerifyHeaders`. The results of a batch that has the merge in it come in as `events`. -/
def VerifyHeaders (ethone : EthOne) (chain : Chain cr) (now : Int) (headers : List Header)
    (events : List (Event (Except Err Unit))) : List (Except Err Unit) :=
  let (preHeaders, postHeaders) := splitHeaders headers
  if postHeaders.isEmpty then ethone.VerifyHeaders chain now headers
  else if preHeaders.isEmpty then verifyHeaders chain headers none
  else (Collector.start _ headers.length preHeaders.length).collect events

/-- The order in which the two engines may deliver. -/
def Delivered (ethone : EthOne) (chain : Chain cr) (now : Int) (headers : List Header)
    (events : List (Event (Except Err Unit))) : Prop :=
  Interleaves (ethone.VerifyHeaders chain now (splitHeaders headers).1)
    (verifyHeaders chain (splitHeaders headers).2 (splitHeaders headers).1.getLast?) events

end Beacon

/-! ## One result for each header -/

theorem Ethash.verifyRest_length (e : Ethash) (config : ChainConfig) (now : Int) (prev : Header)
    (headers : List Header) : (e.verifyRest cr config now prev headers).length = headers.length := by
  induction headers generalizing prev with
  | nil => rfl
  | cons h headers ih => rw [verifyRest, length_cons, ih, length_cons]

theorem CliqueEngine.verifyFrom_length (chain : Chain cr) (now : Nat) (c : CliqueEngine)
    (earlier headers : List Header) :
    (verifyFrom chain now c earlier headers).length = headers.length := by
  induction headers generalizing c earlier with
  | nil => rfl
  | cons h headers ih =>
    rw [verifyFrom]
    split
    · rw [length_cons, ih, length_cons]
    · rw [length_cons, ih, length_cons]

theorem EthOne.VerifyHeaders_length (e : EthOne) (chain : Chain cr) (now : Int)
    (headers : List Header) : (e.VerifyHeaders chain now headers).length = headers.length := by
  cases e with
  | clique c => exact CliqueEngine.verifyFrom_length chain _ c [] headers
  | ethash e =>
    show (e.VerifyHeaders chain now headers).length = _
    unfold Ethash.VerifyHeaders
    split
    · exact length_map ..
    cases headers with
    | nil => rfl
    | cons h headers =>
      dsimp only
      rw [length_cons, Ethash.verifyRest_length, length_cons]

namespace Beacon

theorem verifyRest_length (config : ChainConfig) (prev : Header) (headers : List Header) :
    (verifyRest cr config prev headers).length = headers.length := by
  induction headers generalizing prev with
  | nil => rfl
  | cons h headers ih => rw [verifyRest, length_cons, ih, length_cons]

theorem verifyHeaders_length (chain : Chain cr) (headers : List Header) (ancestor : Option Header) :
    (verifyHeaders chain headers ancestor).length = headers.length := by
  cases headers with
  | nil => rfl
  | cons h headers =>
    unfold verifyHeaders
    rw [length_cons, verifyRest_length, length_cons]

theorem splitHeaders_append (headers : List Header) :
    (splitHeaders headers).1 ++ (splitHeaders headers).2 = headers := by
  rw [splitHeaders, span_eq_takeWhile_dropWhile]
  exact takeWhile_append_dropWhile

/-- Whatever the schedule, the results are those of the two parts one after the other. -/
theorem VerifyHeaders_eq {ethone : EthOne} {chain : Chain cr} {now : Int} {headers : List Header}
    {events : List (Event (Except Err Unit))} (h : Delivered ethone chain now headers events) :
    VerifyHeaders ethone chain now headers events =
      ethone.VerifyHeaders chain now (splitHeaders headers).1 ++
        verifyHeaders chain (splitHeaders headers).2 (splitHeaders headers).1.getLast? := by
  have happend := splitHeaders_append headers
  rw [Delivered] at h
  rw [VerifyHeaders]
  generalize splitHeaders headers = parts at h happend
  obtain ⟨preHeaders, postHeaders⟩ := parts
  dsimp only at h happend ⊢
  subst happend
  cases postHeaders with
  | nil =>
    rw [if_pos isEmpty_nil, append_nil]
    exact (append_nil _).symm
  | cons first postHeaders =>
    rw [if_neg (by exact Bool.false_ne_true)]
    cases preHeaders with
    | nil =>
      have hnone : ethone.VerifyHeaders chain now [] = [] :=
        length_eq_zero_iff.mp (EthOne.VerifyHeaders_length ethone chain now [])
      rw [if_pos isEmpty_nil, hnone]
      rfl
    | cons h' preHeaders =>
      have hold := EthOne.VerifyHeaders_length ethone chain now (h' :: preHeaders)
      have hnew := verifyHeaders_length chain (first :: postHeaders) (h' :: preHeaders).getLast?
      rw [if_neg (by exact Bool.false_ne_true), length_append, ← hold, ← hnew, collect_start h]

end Beacon

end GoEthereum.Consensus

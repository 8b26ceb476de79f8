import GoEthereum.Consensus.Beacon

/-!
# A batch of headers and one header after the other

The results of `VerifyHeaders` for a batch are compared with those of `VerifyHeader` for its
headers one by one, each on a chain that has the earlier ones, up to the first header that the
batch rejects. They agree but for these cases. The first header of a batch may have a
difficulty while its parent has none: `VerifyHeader` rejects it, and `VerifyHeaders` leaves it
to the old engine. Ethash does not look at a single header that the chain already has. And a
full faker accepts all headers of a batch, but verifies one alone.
-/

namespace GoEthereum.Consensus

open List

variable {cr : Crypto}

variable {e : EthOne} {h prev : Header} {earlier headers : List Header}

/-! ## One by one -/

/-- Headers that are verified one by one, each on its own chain. -/
def oneByOne (now : Int) (chains : Nat → Chain cr) :
    EthOne → Nat → List Header → List (Except Err Unit)
  | _, _, [] => []
  | e, i, header :: headers =>
    match Beacon.VerifyHeader e (chains i) now header with
    | .error err => .error err :: oneByOne now chains e (i + 1) headers
    | .ok e => .ok () :: oneByOne now chains e (i + 1) headers

def Accepted (r : Except Err Unit) : Prop := r = .ok ()

/-- Wherever all earlier results are acceptances, both are or neither is. -/
def Agree : List (Except Err Unit) → List (Except Err Unit) → Prop
  | [], [] => True
  | r :: results, s :: singles =>
    (Accepted r ↔ Accepted s) ∧ (Accepted r → Agree results singles)
  | _, _ => False

theorem not_accepted {err : Err} : ¬ Accepted (.error err) := by rintro ⟨⟩

/-- Two errors agree, whatever follows. -/
theorem agree_errors {err err' : Err} {results singles : List (Except Err Unit)} :
    Agree (.error err :: results) (.error err' :: singles) :=
  ⟨iff_of_false not_accepted not_accepted, fun h => absurd h not_accepted⟩

theorem not_all_accepted {err : Err} {results : List (Except Err Unit)} :
    ¬ ∀ r ∈ .error err :: results, Accepted r := fun h => not_accepted (h _ List.mem_cons_self)

/-- Once there is no difficulty there is none. -/
def NoReturn (parent : Header) (headers : List Header) : Prop :=
  List.IsChain (fun a b => a.difficulty = 0 → b.difficulty = 0) (parent :: headers)

/-! ## The old engine in a batch -/

/-- What `VerifyHeaders` of an old engine does with one header behind others. -/
def EthOne.step (e : EthOne) (chain : Chain cr) (now : Int) (earlier : List Header)
    (prev header : Header) : Except Err EthOne :=
  match e with
  | .ethash e =>
    if e.fakeFull then .ok (.ethash e)
    else (e.verifyHeader chain.config header prev false now).map fun _ => .ethash e
  | .clique c => (c.verifyHeader chain (unixTime now) header earlier).map .clique

def EthOne.steps (chain : Chain cr) (now : Int) :
    EthOne → List Header → Header → List Header → List (Except Err Unit)
  | _, _, _, [] => []
  | e, earlier, prev, header :: headers =>
    match e.step chain now earlier prev header with
    | .error err => .error err :: EthOne.steps chain now e (earlier ++ [header]) header headers
    | .ok e => .ok () :: EthOne.steps chain now e (earlier ++ [header]) header headers

theorem verifyRest_eq_steps {e : Ethash} (hfull : e.fakeFull = false) {chain : Chain cr}
    {now : Int} {prev : Header} {headers : List Header} (hcont : Contiguous cr prev headers)
    (earlier : List Header) :
    e.verifyRest cr chain.config now prev headers =
      EthOne.steps chain now (.ethash e) earlier prev headers := by
  induction headers generalizing prev earlier with
  | nil => rfl
  | cons h headers ih =>
    obtain ⟨hlink, -, -, hrest⟩ := hcont
    rw [Ethash.verifyRest, if_pos hlink.symm, ih hrest (earlier ++ [h]), EthOne.steps,
      EthOne.step, hfull]
    cases e.verifyHeader chain.config h prev false now with
    | error err => rfl
    | ok u => rfl

theorem steps_fakeFull {e : Ethash} (hfull : e.fakeFull = true) (chain : Chain cr) (now : Int)
    (earlier : List Header) (prev : Header) (headers : List Header) :
    headers.map (fun _ => .ok ()) = EthOne.steps chain now (.ethash e) earlier prev headers := by
  induction headers generalizing prev earlier with
  | nil => rfl
  | cons h headers ih =>
    rw [EthOne.steps, EthOne.step, if_pos hfull, map_cons, ih (earlier ++ [h]) h]

theorem verifyFrom_eq_steps (c : CliqueEngine) (chain : Chain cr) (now : Int)
    (earlier headers : List Header) (prev : Header) :
    CliqueEngine.verifyFrom chain (unixTime now) c earlier headers =
      EthOne.steps chain now (.clique c) earlier prev headers := by
  induction headers generalizing c earlier prev with
  | nil => rfl
  | cons h headers ih =>
    rw [CliqueEngine.verifyFrom, EthOne.steps, EthOne.step]
    cases c.verifyHeader chain (unixTime now) h earlier with
    | error err =>
      show Except.error err :: _ = Except.error err :: _
      rw [ih]
    | ok c' =>
      show Except.ok () :: _ = Except.ok () :: _
      rw [ih]

theorem EthOne.VerifyHeaders_eq_steps (e : EthOne) {chain : Chain cr} {parent : Header}
    (hbatch : chain.Batch parent headers) (now : Int) :
    e.VerifyHeaders chain now headers = EthOne.steps chain now e [] parent headers := by
  cases e with
  | clique c => exact verifyFrom_eq_steps c chain now [] headers parent
  | ethash e =>
    show e.VerifyHeaders chain now headers = _
    unfold Ethash.VerifyHeaders
    cases hfull : e.fakeFull with
    | true => exact steps_fakeFull hfull chain now [] parent headers
    | false =>
      rw [if_neg Bool.false_ne_true]
      cases headers with
      | nil => rfl
      | cons h headers =>
        have hget : chain.getHeader h.parentHash (UInt64.ofNat h.number - 1) = some parent := by
          rw [hbatch.contiguous.1, uint64_pred hbatch.contiguous.2.1]
          exact hbatch.known
        have hrest := @verifyRest_eq_steps cr e hfull chain now _ _ hbatch.contiguous []
        dsimp only
        rw [hget, ← hrest, Ethash.verifyRest, if_pos hbatch.contiguous.1.symm]

/-- The state in which the old engine is behind some headers of a batch. -/
def EthOne.Recent (e : EthOne) (earlier : List Header) : Prop :=
  match e with
  | .ethash _ => True
  | .clique c => c.Recent earlier

theorem EthOne.step_recent {e' : EthOne} {chain : Chain cr} {now : Int} {parent : Header}
    (hbatch : chain.Batch parent (earlier ++ [h])) (hok : e.step chain now earlier prev h = .ok e')
    : e'.Recent (earlier ++ [h]) := by
  cases e with
  | ethash e =>
    have hsame : e' = .ethash e := by
      rw [EthOne.step] at hok
      split at hok
      · exact (Except.ok.inj hok).symm
      obtain ⟨-, -, hsame⟩ := ok_of_map hok
      exact hsame.symm
    subst hsame
    exact trivial
  | clique c =>
    rw [EthOne.step] at hok
    obtain ⟨c', hverify, rfl⟩ := ok_of_map hok
    exact CliqueEngine.verifyHeader_recent hbatch hverify

/-- A header that breaks the rules of ethash, and that only one of the two does not hold against
them: alone if the chain already has it, in a batch if the engine is a full faker. -/
def EthOne.Shortcut (e : EthOne) (chain : Chain cr) (now : Int) (prev header : Header) : Prop :=
  match e with
  | .ethash e =>
    ¬ Accepted (e.verifyHeader chain.config header prev false now) ∧
      ((chain.getHeader (header.hash cr) (UInt64.ofNat header.number)).isSome = true ↔
        e.fakeFull = false)
  | .clique _ => False

/-- What the two say about a header: the same, but for a shortcut. -/
theorem EthOne.VerifyHeader_step {chain chain' : Chain cr} {parent : Header}
    (hbatch : chain.Batch parent (earlier ++ [h])) (hext : chain.Extends earlier chain')
    (hrecent : e.Recent earlier) (now : Int) :
    (¬ e.Shortcut chain' now (lastOf parent earlier) h ∧
      ((∃ e', e.VerifyHeader chain' now h = .ok e' ∧
          e.step chain now earlier (lastOf parent earlier) h = .ok e') ∨
        ∃ err, e.VerifyHeader chain' now h = .error err ∧
          e.step chain now earlier (lastOf parent earlier) h = .error err)) ∨
    (e.Shortcut chain' now (lastOf parent earlier) h ∧
      ((∃ e' err, e.VerifyHeader chain' now h = .ok e' ∧
          e.step chain now earlier (lastOf parent earlier) h = .error err) ∨
        ∃ e' err, e.VerifyHeader chain' now h = .error err ∧
          e.step chain now earlier (lastOf parent earlier) h = .ok e')) := by
  cases e with
  | clique c =>
    refine .inl ⟨fun hshort => hshort.elim, ?_⟩
    rw [EthOne.VerifyHeader, EthOne.step, CliqueEngine.VerifyHeader,
      CliqueEngine.verifyHeader_extends hbatch hext hrecent]
    cases c.verifyHeader chain' (unixTime now) h [] with
    | error err => exact .inr ⟨err, rfl, rfl⟩
    | ok c' => exact .inl ⟨.clique c', rfl, rfl⟩
  | ethash e =>
    rw [EthOne.VerifyHeader, EthOne.step, Ethash.VerifyHeader, EthOne.Shortcut,
      hbatch.getHeader_parent hext, hext.config_eq]
    dsimp only
    cases e.verifyHeader chain.config h (lastOf parent earlier) false now with
    | ok u =>
      refine .inl ⟨fun hshort => hshort.1 rfl, .inl ⟨.ethash e, ?_, ?_⟩⟩
      · rw [ite_self]
        rfl
      · exact ite_self _
    | error err =>
      cases hknown : (chain'.getHeader (h.hash cr) (UInt64.ofNat h.number)).isSome with
      | true =>
        cases hfull : e.fakeFull with
        | true => exact .inl ⟨fun hshort => (by cases hshort.2.mp rfl), .inl ⟨_, rfl, rfl⟩⟩
        | false =>
          exact .inr ⟨⟨not_accepted, iff_of_true rfl rfl⟩, .inl ⟨_, err, rfl, rfl⟩⟩
      | false =>
        cases hfull : e.fakeFull with
        | true =>
          exact .inr ⟨⟨not_accepted, iff_of_false Bool.false_ne_true Bool.noConfusion⟩,
            Or.inr ⟨_, err, rfl, rfl⟩⟩
        | false =>
          exact .inl ⟨fun hshort => (by cases hshort.2.mpr rfl), .inr ⟨err, rfl, rfl⟩⟩

/-! ## After the merge -/

theorem Beacon.verifyHeader_difficulty {config : ChainConfig} {header parent : Header}
    (h : Accepted (Beacon.verifyHeader config header parent)) : header.difficulty = 0 := by
  by_contra hdiff
  rw [Accepted, Beacon.verifyHeader] at h
  split_ifs at h

/-- What is asked about a header whose parent is known. -/
theorem Beacon.VerifyHeader_cases {chain : Chain cr} {header parent : Header}
    (hget : chain.getHeader header.parentHash (UInt64.ofNat header.number - 1) = some parent)
    (e : EthOne) (now : Int) :
    (header.difficulty = 0 → Beacon.VerifyHeader e chain now header =
      (Beacon.verifyHeader chain.config header parent).map fun _ => e) ∧
    (parent.difficulty = 0 → 0 < header.difficulty →
      Beacon.VerifyHeader e chain now header = .error .ErrInvalidTerminalBlock) ∧
    (0 < parent.difficulty → 0 < header.difficulty →
      Beacon.VerifyHeader e chain now header = e.VerifyHeader chain now header) := by
  rw [Beacon.VerifyHeader, hget]
  dsimp only
  refine ⟨fun hzero => ?_, fun hzero hpos => if_pos ⟨hzero, hpos⟩, fun hparent hpos => ?_⟩
  · rw [if_neg (fun hback => by omega), if_neg (by omega)]
  · rw [if_neg (fun hback => by omega), if_pos hpos]

theorem Beacon.verifyHeaders_eq {chain : Chain cr} (hcont : Contiguous cr prev headers)
    {ancestor : Option Header}
    (hprev : ancestor = some prev ∨ (ancestor = none ∧ chain.getHeader (prev.hash cr) (UInt64.ofNat prev.number) = some prev)) :
    Beacon.verifyHeaders chain headers ancestor =
      Beacon.verifyRest cr chain.config prev headers := by
  cases headers with
  | nil => rfl
  | cons h headers =>
    obtain ⟨hlink, hnumber, -, -⟩ := hcont
    rw [Beacon.verifyRest, if_pos hlink.symm]
    unfold Beacon.verifyHeaders
    obtain rfl | ⟨rfl, hget⟩ := hprev
    · rfl
    · dsimp only
      rw [hlink, uint64_pred hnumber, hget]

section Batch

variable {chain : Chain cr} {chains : Nat → Chain cr} {now : Int} {parent : Header}

/-- The chains on which the headers are verified one by one. -/
def Growing (chain : Chain cr) (chains : Nat → Chain cr) (headers : List Header) : Prop :=
  ∀ i < headers.length, chain.Extends (headers.take i) (chains i)

theorem extends_before (hchains : Growing chain chains (earlier ++ h :: headers)) :
    chain.Extends earlier (chains earlier.length) := by
  have hext := hchains earlier.length (by
    rw [length_append, length_cons]
    omega)
  rw [take_left] at hext
  exact hext

/-- The headers behind the merge are judged alike, and none of them that is accepted has a
difficulty. -/
theorem agree_post {earlier headers : List Header}
    (hbatch : chain.Batch parent (earlier ++ headers))
    (hchains : Growing chain chains (earlier ++ headers))
    (hmerge : ∀ h, headers.head? = some h →
      h.difficulty = 0 ∨ (lastOf parent earlier).difficulty = 0) (e : EthOne) :
    Agree (Beacon.verifyRest cr chain.config (lastOf parent earlier) headers)
        (oneByOne now chains e earlier.length headers) ∧
      ((∀ r ∈ Beacon.verifyRest cr chain.config (lastOf parent earlier) headers, Accepted r) →
        NoReturn (lastOf parent earlier) headers) := by
  induction headers generalizing earlier e with
  | nil => exact ⟨trivial, fun _ => isChain_singleton _⟩
  | cons h headers ih =>
    have hlink := (contiguous_append.mp hbatch.contiguous).2.1
    have hext := extends_before hchains
    have hget := hbatch.getHeader_parent hext
    rw [append_cons] at hbatch hchains
    obtain ⟨hnew, hback, -⟩ := Beacon.VerifyHeader_cases hget e now
    rw [hext.config_eq] at hnew
    rw [Beacon.verifyRest, if_pos hlink.symm, oneByOne]
    cases hverify : Beacon.verifyHeader chain.config h (lastOf parent earlier) with
    | error err =>
      refine ⟨?_, fun hall => absurd hall not_all_accepted⟩
      by_cases hzero : h.difficulty = 0
      · rw [hnew hzero, hverify]
        exact agree_errors
      · rw [hback ((hmerge h rfl).resolve_left hzero) (Nat.pos_of_ne_zero hzero)]
        exact agree_errors
    | ok u =>
      have hzero := Beacon.verifyHeader_difficulty hverify
      obtain ⟨hagree, hreturn⟩ := @ih (earlier ++ [h]) hbatch hchains (fun _ _ => by
          rw [lastOf_append]
          exact .inr hzero) e
      rw [lastOf_append, length_append, length_singleton] at hagree
      rw [lastOf_append] at hreturn
      rw [hnew hzero, hverify]
      refine ⟨⟨Iff.rfl, fun _ => hagree⟩, fun hall => ?_⟩
      have hrest := hreturn fun r hr => hall r (mem_cons_of_mem _ hr)
      exact isChain_cons_cons.mpr ⟨fun _ => hzero, hrest⟩

/-! ## The whole batch -/

/-- The results of a batch, header by header. -/
def batchFrom (chain : Chain cr) (now : Int) :
    EthOne → List Header → Header → List Header → List (Except Err Unit)
  | _, _, _, [] => []
  | e, earlier, prev, header :: headers =>
    if header.difficulty = 0 then Beacon.verifyRest cr chain.config prev (header :: headers)
    else
      match e.step chain now earlier prev header with
      | .error err => .error err :: batchFrom chain now e (earlier ++ [header]) header headers
      | .ok e => .ok () :: batchFrom chain now e (earlier ++ [header]) header headers

theorem steps_append_verifyRest {preHeaders postHeaders : List Header}
    (hpre : ∀ h ∈ preHeaders, h.difficulty ≠ 0)
    (hpost : ∀ h, postHeaders.head? = some h → h.difficulty = 0) (e : EthOne)
    (earlier : List Header) (prev : Header) :
    EthOne.steps chain now e earlier prev preHeaders ++
        Beacon.verifyRest cr chain.config (lastOf prev preHeaders) postHeaders =
      batchFrom chain now e earlier prev (preHeaders ++ postHeaders) := by
  induction preHeaders generalizing e earlier prev with
  | nil =>
    cases postHeaders with
    | nil => rfl
    | cons h postHeaders =>
      rw [nil_append, batchFrom, if_pos (hpost h rfl)]
      rfl
  | cons h preHeaders ih =>
    have hlast : lastOf prev (h :: preHeaders) = lastOf h preHeaders := by
      cases preHeaders with
      | nil => rfl
      | cons h' preHeaders => rfl
    rw [cons_append, batchFrom, if_neg (hpre h mem_cons_self), EthOne.steps, hlast]
    have hrest := ih fun x hx => hpre x (mem_cons_of_mem h hx)
    cases e.step chain now earlier prev h with
    | error err =>
      dsimp only
      rw [cons_append, hrest]
    | ok e' =>
      dsimp only
      rw [cons_append, hrest]

theorem Beacon.VerifyHeaders_eq_batchFrom {events : List (Beacon.Event (Except Err Unit))}
    (hbatch : chain.Batch parent headers) (hevents : Beacon.Delivered e chain now headers events) :
    Beacon.VerifyHeaders e chain now headers events = batchFrom chain now e [] parent headers := by
  have happend := Beacon.splitHeaders_append headers
  have hpre : ∀ h ∈ (Beacon.splitHeaders headers).1, h.difficulty ≠ 0 := by
    intro h hh
    rw [Beacon.splitHeaders, span_eq_takeWhile_dropWhile] at hh
    have hpos := mem_takeWhile_imp (show h ∈ headers.takeWhile _ from hh)
    exact of_decide_eq_true hpos
  have hpost : ∀ h, (Beacon.splitHeaders headers).2.head? = some h → h.difficulty = 0 := by
    intro h hh
    rw [Beacon.splitHeaders, span_eq_takeWhile_dropWhile] at hh
    have hnot := head?_dropWhile_not (fun h : Header => decide (h.difficulty ≠ 0)) headers
    rw [hh] at hnot
    exact not_not.mp (of_decide_eq_false hnot)
  rw [Beacon.VerifyHeaders_eq hevents]
  generalize Beacon.splitHeaders headers = parts at happend hpre hpost
  obtain ⟨preHeaders, postHeaders⟩ := parts
  dsimp only at happend hpre hpost ⊢
  subst happend
  obtain ⟨hcont, hcont'⟩ := contiguous_append.mp hbatch.contiguous
  rw [← steps_append_verifyRest hpre hpost, e.VerifyHeaders_eq_steps ⟨hbatch.known, hcont⟩ now,
    Beacon.verifyHeaders_eq hcont']
  cases preHeaders using reverseRecOn with
  | nil => exact .inr ⟨rfl, hbatch.known⟩
  | append_singleton preHeaders last =>
    rw [lastOf_append]
    exact .inl (getLast?_concat ..)

/-- The first header that is not judged alike. All before it are accepted and have a difficulty,
as it has itself. Either it is the first of the batch, its parent has no difficulty and the old
engine accepts it; or there is a shortcut for it. -/
def Slips (chain : Chain cr) (now : Int) (chains : Nat → Chain cr) :
    EthOne → List Header → Header → List Header → Prop
  | _, _, _, [] => False
  | e, earlier, prev, header :: headers =>
    0 < header.difficulty ∧ ((earlier = [] ∧ prev.difficulty = 0 ∧
          ∃ e', e.step chain now earlier prev header = .ok e') ∨
        (0 < prev.difficulty ∧ e.Shortcut (chains earlier.length) now prev header) ∨
        ∃ e', e.step chain now earlier prev header = .ok e' ∧
          Slips chain now chains e' (earlier ++ [header]) header headers)

theorem slips_cons_of_ok {e' : EthOne} (hstep : e.step chain now earlier prev h = .ok e')
    (hprev : 0 < prev.difficulty) (hpos : 0 < h.difficulty)
    (hshort : ¬ e.Shortcut (chains earlier.length) now prev h) :
    Slips chain now chains e earlier prev (h :: headers) ↔
      Slips chain now chains e' (earlier ++ [h]) h headers := by
  rw [Slips]
  constructor
  · rintro ⟨-, ⟨-, hzero, -⟩ | ⟨-, hs⟩ | ⟨e'', he'', hslips⟩⟩
    · omega
    · exact absurd hs hshort
    · rw [hstep] at he''
      cases he''
      exact hslips
  · exact fun hslips => ⟨hpos, .inr (.inr ⟨e', hstep, hslips⟩)⟩

theorem batchFrom_agrees_iff {e : EthOne} {earlier headers : List Header}
    (hbatch : chain.Batch parent (earlier ++ headers))
    (hchains : Growing chain chains (earlier ++ headers))
    (hrecent : e.Recent earlier)
    (hprev : earlier = [] ∨ 0 < (lastOf parent earlier).difficulty) :
    (Agree (batchFrom chain now e earlier (lastOf parent earlier) headers)
        (oneByOne now chains e earlier.length headers) ↔
      ¬ Slips chain now chains e earlier (lastOf parent earlier) headers) ∧
    (¬ Slips chain now chains e earlier (lastOf parent earlier) headers →
      (∀ r ∈ batchFrom chain now e earlier (lastOf parent earlier) headers, Accepted r) →
        NoReturn (lastOf parent earlier) headers) := by
  induction headers generalizing e earlier with
  | nil => exact ⟨iff_of_true trivial fun h => h, fun _ _ => isChain_singleton _⟩
  | cons h headers ih =>
    by_cases hzero : h.difficulty = 0
    · have hslips : ¬ Slips chain now chains e earlier (lastOf parent earlier)
          (h :: headers) := fun hslips => by
        rw [Slips] at hslips
        omega
      obtain ⟨hagree, hreturn⟩ := @agree_post cr chain chains now _ _ _ hbatch hchains
        (fun x hx => Or.inl (by
          cases hx
          exact hzero)) e
      rw [batchFrom, if_pos hzero]
      exact ⟨iff_of_true hagree hslips, fun _ => hreturn⟩
    have hpos : 0 < h.difficulty := Nat.pos_of_ne_zero hzero
    have hext := extends_before hchains
    have hget := hbatch.getHeader_parent hext
    rw [append_cons] at hbatch hchains
    have hfront : chain.Batch parent (earlier ++ [h]) :=
      ⟨hbatch.known, (contiguous_append.mp hbatch.contiguous).1⟩
    obtain ⟨-, hback, hold⟩ := Beacon.VerifyHeader_cases hget e now
    rw [batchFrom, if_neg hzero, oneByOne]
    by_cases hmerged : (lastOf parent earlier).difficulty = 0
    · -- only the first header of the batch can return to a difficulty
      have hfirst : earlier = [] := hprev.resolve_right (by omega)
      rw [hback hmerged hpos, Slips]
      cases hstep : e.step chain now earlier (lastOf parent earlier) h with
      | error err =>
        refine ⟨iff_of_true agree_errors ?_,
          fun _ hall => absurd hall not_all_accepted⟩
        rintro ⟨-, ⟨-, -, e', he'⟩ | ⟨hlast, -⟩ | ⟨e', he', -⟩⟩
        · cases he'
        · omega
        · cases he'
      | ok e' =>
        refine ⟨iff_of_false (fun hagree => not_accepted (hagree.1.mp rfl)) fun hno => ?_,
          fun hno _ => (hno ?_).elim⟩
        · exact hno ⟨hpos, .inl ⟨hfirst, hmerged, e', rfl⟩⟩
        · exact ⟨hpos, .inl ⟨hfirst, hmerged, e', rfl⟩⟩
    have hunmerged : 0 < (lastOf parent earlier).difficulty := Nat.pos_of_ne_zero hmerged
    rw [hold hunmerged hpos]
    obtain ⟨hshort, ⟨e', hsingle, hstep⟩ | ⟨err, hsingle, hstep⟩⟩ |
      ⟨hshort, ⟨e', err, hsingle, hstep⟩ | ⟨e', err, hsingle, hstep⟩⟩ :=
      EthOne.VerifyHeader_step hfront hext hrecent now
    · -- both accept, and the rest is behind the state they both leave
      obtain ⟨hagree, hreturn⟩ := @ih e' (earlier ++ [h]) hbatch hchains
        (EthOne.step_recent hfront hstep) (.inr (by
          rw [lastOf_append]
          exact hpos))
      rw [lastOf_append, length_append, length_singleton] at hagree
      rw [lastOf_append] at hreturn
      rw [hsingle, slips_cons_of_ok hstep hunmerged hpos hshort, hstep]
      refine ⟨⟨fun h => hagree.mp (h.2 rfl), fun hno => ⟨Iff.rfl, fun _ => hagree.mpr hno⟩⟩,
        fun hno hall => ?_⟩
      have hrest := hreturn hno fun r hr => hall r (mem_cons_of_mem _ hr)
      exact isChain_cons_cons.mpr ⟨fun hlast => absurd hlast hmerged, hrest⟩
    · rw [hsingle, Slips, hstep]
      refine ⟨iff_of_true agree_errors ?_,
        fun _ hall => absurd hall not_all_accepted⟩
      rintro ⟨-, ⟨-, -, e', he'⟩ | ⟨-, hs⟩ | ⟨e', he', -⟩⟩
      · cases he'
      · exact hshort hs
      · cases he'
    · rw [hsingle, Slips, hstep]
      refine ⟨iff_of_false (fun hagree => not_accepted (hagree.1.mpr rfl)) fun hno => ?_,
        fun _ hall => absurd hall not_all_accepted⟩
      exact hno ⟨hpos, .inr (.inl ⟨hunmerged, hshort⟩)⟩
    · rw [hsingle, Slips, hstep]
      refine ⟨iff_of_false (fun hagree => not_accepted (hagree.1.mp rfl)) fun hno => ?_,
        fun hno _ => (hno ?_).elim⟩
      · exact hno ⟨hpos, .inr (.inl ⟨hunmerged, hshort⟩)⟩
      · exact ⟨hpos, .inr (.inl ⟨hunmerged, hshort⟩)⟩

end Batch

/-- Batch verification agrees with one by one, and does not go back behind the merge, for all
batches but those with a slip. -/
theorem VerifyHeaders_agrees_iff {e : EthOne} {chain : Chain cr} {chains : Nat → Chain cr}
    {now : Int} {parent : Header} {headers : List Header}
    {events : List (Beacon.Event (Except Err Unit))} (hbatch : chain.Batch parent headers)
    (hevents : Beacon.Delivered e chain now headers events)
    (hchains : ∀ i < headers.length, chain.Extends (headers.take i) (chains i)) :
    (Agree (Beacon.VerifyHeaders e chain now headers events) (oneByOne now chains e 0 headers) ∧
      ((∀ r ∈ Beacon.VerifyHeaders e chain now headers events, Accepted r) →
        NoReturn parent headers)) ↔
      ¬ Slips chain now chains e [] parent headers := by
  have hrecent : e.Recent [] := by
    cases e with
    | ethash e => exact trivial
    | clique c =>
      intro last hlast
      cases hlast
  obtain ⟨hagree, hreturn⟩ := @batchFrom_agrees_iff cr chain chains now parent e [] headers hbatch
    hchains hrecent (.inl rfl)
  rw [Beacon.VerifyHeaders_eq_batchFrom hbatch hevents]
  exact ⟨fun h => hagree.mp h.1, fun hno => ⟨hagree.mpr hno, hreturn hno⟩⟩

/-! ## A chain that starts behind the merge -/

/-- The chain that has a genesis block only. -/
def genesisChain (cr : Crypto) (config : ChainConfig) (genesis : Header)
    (hnumber : genesis.number = 0) : Chain cr where
  config := config
  getHeader hash number := if hash = genesis.hash cr ∧ number = 0 then some genesis else none
  getHeaderByNumber number := if number = 0 then some genesis else none
  header_key := by
    intro hash number h hget
    obtain ⟨⟨rfl, rfl⟩, hsame⟩ := Option.ite_none_right_eq_some.mp hget
    cases hsame
    exact ⟨rfl, by rw [hnumber]; rfl⟩
  no_gap := fun number hpos _ => if_neg hpos
  one_genesis := by
    intro hash h hget
    obtain ⟨-, hsame⟩ := Option.ite_none_right_eq_some.mp hget
    rw [if_pos rfl, hsame]

theorem getHeader_genesis (config : ChainConfig) {genesis : Header} (hnumber : genesis.number = 0) :
    (genesisChain cr config genesis hnumber).getHeader (genesis.hash cr) 0 = some genesis :=
  if_pos ⟨rfl, rfl⟩

def mergedCrypto : Crypto where
  keccak := Keccak.keccak256
  ecrecover _ _ := none

/-- A chain with all forks up to London from the start. -/
def mergedConfig : ChainConfig where
  homesteadBlock := some 0
  daoForkBlock := none
  daoForkSupport := false
  byzantiumBlock := some 0
  constantinopleBlock := some 0
  muirGlacierBlock := some 0
  londonBlock := some 0
  arrowGlacierBlock := some 0
  grayGlacierBlock := some 0
  shanghaiTime := none
  cancunTime := none
  pragueTime := none
  osakaTime := none
  blobScheduleConfig := none

/-- A genesis block without difficulty. -/
def mergedGenesis : Header where
  parentHash := bigToHash 0
  uncleHash := Clique.emptyUncleHash
  coinbase := bigToAddress 0
  root := bigToHash 1
  txHash := bigToHash 2
  receiptHash := bigToHash 3
  bloom := replicate 256 0
  difficulty := 0
  number := 0
  gasLimit := 30000000
  gasUsed := 0
  time := 0
  extra := []
  mixDigest := bigToHash 0
  nonce := replicate 8 0
  baseFee := some 1000000000
  withdrawalsHash := none
  blobGasUsed := none
  excessBlobGas := none
  parentBeaconRoot := none
  requestsHash := none

def mergedChain : Chain mergedCrypto :=
  genesisChain mergedCrypto mergedConfig mergedGenesis rfl

/-- The next block, with some difficulty. -/
def mergedNext (difficulty : Nat) : Header :=
  { mergedGenesis with
    parentHash := mergedGenesis.hash mergedCrypto
    difficulty := difficulty
    number := 1
    time := 10
    baseFee := some 875000000 }

def plainEthash : EthOne := .ethash { fakeFail := none, fakeFull := false }

theorem batch_merged (difficulty : Nat) :
    mergedChain.Batch mergedGenesis [mergedNext difficulty] where
  known := getHeader_genesis mergedConfig rfl
  contiguous := ⟨rfl, rfl, show 1 < 2 ^ 64 by decide, trivial⟩

theorem extends_merged (header : Header) :
    ∀ i < [header].length, mergedChain.Extends ([header].take i) mergedChain := by
  intro i hi
  obtain rfl : i = 0 := Nat.lt_one_iff.mp hi
  exact ⟨rfl, fun _ _ => rfl, fun _ => rfl⟩

theorem getHeader_parent (difficulty : Nat) :
    mergedChain.getHeader (mergedNext difficulty).parentHash
      (UInt64.ofNat (mergedNext difficulty).number - 1) = some mergedGenesis := by
  have hzero : UInt64.ofNat (mergedNext difficulty).number - 1 = 0 := uint64_pred rfl
  rw [hzero]
  exact getHeader_genesis mergedConfig rfl

theorem verifyHeader_next :
    Beacon.verifyHeader mergedConfig (mergedNext 0) mergedGenesis = .ok () := by
  decide +kernel

theorem verifyHeaders_next : Beacon.verifyHeaders mergedChain [mergedNext 0] none = [.ok ()] := by
  unfold Beacon.verifyHeaders
  dsimp only
  rw [getHeader_parent]
  exact congrArg (fun r => [r]) verifyHeader_next

theorem VerifyHeaders_agrees_iff_next :
    Agree (Beacon.VerifyHeaders plainEthash mergedChain 20 [mergedNext 0] [.new (.ok ())])
        (oneByOne 20 (fun _ => mergedChain) plainEthash 0 [mergedNext 0]) ∧
      NoReturn mergedGenesis [mergedNext 0] := by
  have hevents : Beacon.Delivered plainEthash mergedChain 20 [mergedNext 0] [.new (.ok ())] := by
    show Beacon.Interleaves [] (Beacon.verifyHeaders mergedChain [mergedNext 0] none) _
    rw [verifyHeaders_next]
    exact .new _ .nil
  have hslips : ¬ Slips mergedChain 20 (fun _ => mergedChain) plainEthash [] mergedGenesis
      [mergedNext 0] := fun hslips => Nat.lt_irrefl 0 hslips.1
  have hboth :=
    (VerifyHeaders_agrees_iff (batch_merged 0) hevents (extends_merged _)).mpr hslips
  refine hboth.imp_right fun hreturn => hreturn ?_
  rw [Beacon.VerifyHeaders_eq hevents]
  show ∀ r ∈ [] ++ Beacon.verifyHeaders mergedChain [mergedNext 0] none, Accepted r
  rw [verifyHeaders_next]
  exact forall_mem_singleton.mpr rfl

theorem ethash_verifyHeader_next :
    Ethash.verifyHeader { fakeFail := none, fakeFull := false } mergedConfig (mergedNext 131072)
      mergedGenesis false 20 = .ok () := by
  decide +kernel

/-- A batch of one block with difficulty on a block without is accepted, and the block alone is
not. -/
theorem VerifyHeaders_return : mergedChain.Batch mergedGenesis [mergedNext 131072] ∧
      Beacon.Delivered plainEthash mergedChain 20 [mergedNext 131072] [.old (.ok ())] ∧
      Beacon.VerifyHeaders plainEthash mergedChain 20 [mergedNext 131072] [.old (.ok ())] =
        [.ok ()] ∧
      Beacon.VerifyHeader plainEthash mergedChain 20 (mergedNext 131072) =
        .error .ErrInvalidTerminalBlock ∧
      ¬ NoReturn mergedGenesis [mergedNext 131072] := by
  have hresult : plainEthash.VerifyHeaders mergedChain 20 [mergedNext 131072] = [.ok ()] := by
    rw [plainEthash, EthOne.VerifyHeaders, Ethash.VerifyHeaders, if_neg Bool.false_ne_true,
      getHeader_parent]
    exact congrArg (fun r => [r]) ethash_verifyHeader_next
  refine ⟨batch_merged _, ?_, hresult, ?_, ?_⟩
  · show Beacon.Interleaves (plainEthash.VerifyHeaders mergedChain 20 [mergedNext 131072]) [] _
    rw [hresult]
    exact .old _ .nil
  · exact (Beacon.VerifyHeader_cases (getHeader_parent _) plainEthash 20).2.1 rfl (Nat.succ_pos _)
  · intro hreturn
    have hzero := (isChain_cons_cons.mp hreturn).1 rfl
    cases hzero

end GoEthereum.Consensus

import GoEthereum.Consensus.Chain

/-!
# Header verification in Clique

`consensus/clique/clique.go`: `VerifyHeader`, `VerifyHeaders` and `snapshot`, which looks for a
snapshot in memory, on disk or at a trusted checkpoint, walking back over the parents of a
batch and then over the chain. A snapshot is cached and stored under its own hash, so the
caches are lists of snapshots. A call that fails leaves them as they were; what it would have
added is found again.

`VerifyHeaders` hands the earlier headers of the batch along instead of having them in the
chain. Once a header is accepted the snapshot of its parent is in memory, and the walk for the
next header ends there: it sees the same headers either way.
-/

namespace GoEthereum.Consensus

open List

open GoEthereum.Clique (extraVanity extraSeal SigLRU emptyUncleHash nonceAuthVote nonceDropVote
  diffInTurn diffNoTurn)
open GoEthereum.Clique.Voting (Snapshot apply verifySeal)

variable {hash : Hash} {h parent : Header} {earlier headers parents : List Header} {s : Snapshot}
  {number : UInt64}

def checkpointInterval : Nat := 1024

def inmemorySnapshots : Nat := 128

def fullImmutabilityThreshold : Nat := 90000

def addressLength : Nat := 20

/-- `Clique`, as far as header verification reads it. -/
structure CliqueEngine where
  config : Clique.Config
  recents : List Snapshot      -- the most recently used snapshot first
  db : List Snapshot
  signatures : SigLRU
  fakeDiff : Bool

variable {cr : Crypto}

variable {chain chain' : Chain cr} {c c' : CliqueEngine}

/-- The snapshot with a hash. -/
def withHash (snaps : List Snapshot) (hash : Hash) : Option Snapshot :=
  snaps.find? fun s => decide (s.hash = hash)

/-- `copy` into an address. -/
def copyAddress (b : Bytes) : Address := ⟨(b ++ replicate addressLength 0).take addressLength,
  by rw [length_take, length_append, length_replicate, addressLength]; omega⟩

namespace CliqueEngine

section

variable (c : CliqueEngine) (chain : Chain cr)

/-- `c.recents.Get`: the snapshot found moves to the front. -/
def touch (snap : Snapshot) : CliqueEngine :=
  { c with recents := snap :: c.recents.eraseP fun s => decide (s.hash = snap.hash) }

/-- `c.recents.Add`. -/
def addRecent (snap : Snapshot) : CliqueEngine :=
  match withHash c.recents snap.hash with
  | some _ => c.touch snap
  | none =>
    if inmemorySnapshots ≤ c.recents.length then
      { c with recents := snap :: c.recents.dropLast }
    else { c with recents := snap :: c.recents }

/-- The signers a checkpoint block lists; an extra field that is too short panics. -/
def checkpointSigners (extra : Bytes) : Except Err (List Address) :=
  if extra.length + addressLength ≤ extraVanity + extraSeal then .error .panic
  else
    let n := (extra.length - extraVanity - extraSeal) / addressLength
    .ok ((range n).map fun i =>
      copyAddress (extra.drop (extraVanity + i * addressLength)))

/-- A checkpoint that is trusted: the genesis block, or one of an epoch that has no parent or
too many headers on top. -/
def trusted (number : UInt64) (piled : Nat) :
    Except Err (Option Snapshot) :=
  if number = 0 ∨ (number.toNat % c.config.epoch = 0 ∧
      (piled > fullImmutabilityThreshold ∨ chain.getHeaderByNumber (number - 1) = none)) then
    match chain.getHeaderByNumber number with
    | none => .ok none
    | some checkpoint =>
      (checkpointSigners checkpoint.extra).map fun signers =>
        some (Snapshot.newSnapshot number (checkpoint.hash cr) signers)
  else .ok none

/-- A snapshot in memory, on disk, or of a trusted checkpoint, which is then stored. -/
def lookup (number : UInt64) (hash : Hash) (piled : Nat) :
    Except Err (Option (Snapshot × CliqueEngine)) :=
  match withHash c.recents hash with
  | some s => .ok (some (s, c.touch s))
  | none =>
    match if number.toNat % checkpointInterval = 0 then withHash c.db hash else none with
    | some s => .ok (some (s, c))
    | none =>
      (c.trusted chain number piled).map fun found =>
        found.map fun s => (s, { c with db := s :: c.db })

/-- The next header back: from the parents if there are any left, or from the chain. -/
def nextHeader (chain : Chain cr) (number : UInt64) (hash : Hash) (parents : List Header) :
    Except Err (Header × List Header) :=
  match parents.getLast? with
  | some header =>
    if header.hash cr ≠ hash ∨ UInt64.ofNat header.number ≠ number then
      .error .ErrUnknownAncestor
    else .ok (header, parents.dropLast)
  | none =>
    match chain.getHeader hash number with
    | none => .error .ErrUnknownAncestor
    | some header => .ok (header, parents)

/-- The loop of `snapshot`: the snapshot it finds, and the headers on top of it, the latest
one first. -/
def findSnapshot (c : CliqueEngine) (chain : Chain cr) :
    Nat → Hash → List Header → List Header → Except Err (Snapshot × CliqueEngine × List Header)
  | n, hash, parents, headers =>
    match c.lookup chain (UInt64.ofNat n) hash headers.length with
    | .error err => .error err
    | .ok (some (s, c)) => .ok (s, c, headers)
    | .ok none =>
      match nextHeader chain (UInt64.ofNat n) hash parents with
      | .error err => .error err
      | .ok (header, parents) =>
        match n with
        | 0 => .error .belowGenesis
        | n + 1 => findSnapshot c chain n header.parentHash parents (headers ++ [header])

def snapshot (number : UInt64) (hash : Hash)
    (parents : List Header) : Except Err (Snapshot × CliqueEngine) :=
  match c.findSnapshot chain number.toNat hash parents [] with
  | .error err => .error err
  | .ok (snap, c, headers) =>
    match apply cr c.config headers.reverse snap c.signatures with
    | .error err => .error (.snapshot err)
    | .ok (snap, signatures) =>
      let c := { c.addRecent snap with signatures := signatures }
      if snap.number.toNat % checkpointInterval = 0 ∧ headers ≠ [] then
        .ok (snap, { c with db := snap :: c.db })
      else .ok (snap, c)

/-- The check of the signers a checkpoint block lists. -/
def verifyCheckpoint (snap : Snapshot) (header : Header) : Except Err Unit :=
  if (UInt64.ofNat header.number).toNat % c.config.epoch = 0 ∧
      (header.extra.drop extraVanity).take (header.extra.length - extraSeal - extraVanity) ≠
        snap.ascending.flatMap (fun a => a.1) then
    .error .errMismatchingCheckpointSigners
  else .ok ()

/-- The parent of a header, in a batch or in the chain. -/
def parentOf (chain : Chain cr) (header : Header) (parents : List Header) : Option Header :=
  match parents.getLast? with
  | some parent => some parent
  | none => chain.getHeader header.parentHash (UInt64.ofNat header.number - 1)

def verifyCascadingFields (header : Header)
    (parents : List Header) : Except Err CliqueEngine :=
  let number := UInt64.ofNat header.number
  if number = 0 then .ok c
  else
    match parentOf chain header parents with
    | none => .error .ErrUnknownAncestor
    | some parent =>
      if UInt64.ofNat parent.number ≠ number - 1 ∨ parent.hash cr ≠ header.parentHash then
        .error .ErrUnknownAncestor
      else if (parent.time + c.config.period) % 2 ^ 64 > header.time then
        .error .errInvalidTimestamp
      else if header.gasUsed > header.gasLimit then
        .error (.invalidGasUsed header.gasUsed header.gasLimit)
      else
        match verifyGas chain.config parent header with
        | .error err => .error err
        | .ok () =>
          match c.snapshot chain (number - 1) header.parentHash parents with
          | .error err => .error err
          | .ok (snap, c) =>
            match c.verifyCheckpoint snap header with
            | .error err => .error err
            | .ok () =>
              match verifySeal cr c.fakeDiff snap header c.signatures with
              | .error err => .error (.snapshot err)
              | .ok signatures => .ok { c with signatures := signatures }

/-- The checks of `verifyHeader` that need no other header. -/
def verifyFields (config : ChainConfig) (now : Nat) (header : Header) :
    Except Err Unit :=
  let number := UInt64.ofNat header.number
  if header.time > now then .error .ErrFutureBlock
  else if c.config.epoch = 0 then .error .panic
  else
    let checkpoint := number.toNat % c.config.epoch = 0
    let signersBytes := header.extra.length - extraVanity - extraSeal
    if checkpoint ∧ header.coinbase ≠ zeroAddress then .error .errInvalidCheckpointBeneficiary
    else if header.nonce ≠ nonceAuthVote ∧ header.nonce ≠ nonceDropVote then
      .error .errInvalidVote
    else if checkpoint ∧ header.nonce ≠ nonceDropVote then .error .errInvalidCheckpointVote
    else if header.extra.length < extraVanity then .error .errMissingVanity
    else if header.extra.length < extraVanity + extraSeal then .error .errMissingSignature
    else if ¬ checkpoint ∧ signersBytes ≠ 0 then .error .errExtraSigners
    else if checkpoint ∧ signersBytes % addressLength ≠ 0 then
      .error .errInvalidCheckpointSigners
    else if header.mixDigest ≠ zeroHash then .error .errInvalidMixDigest
    else if header.uncleHash ≠ emptyUncleHash then .error .errInvalidUncleHash
    else if number > 0 ∧ header.difficulty ≠ diffInTurn ∧ header.difficulty ≠ diffNoTurn then
      .error .errInvalidDifficulty
    else if header.gasLimit > maxGasLimit then .error (.invalidGasLimit header.gasLimit)
    else if config.isShanghai header.number header.time then .error (.forkNotSupported "shanghai")
    else if header.withdrawalsHash.isSome then .error .invalidWithdrawalsHash
    else if config.isCancun header.number header.time then .error (.forkNotSupported "cancun")
    else verifyNoCancunFields header

def verifyHeader (now : Nat) (header : Header)
    (parents : List Header) : Except Err CliqueEngine :=
  match c.verifyFields chain.config now header with
  | .error err => .error err
  | .ok () => c.verifyCascadingFields chain header parents

def VerifyHeader (now : Nat) (header : Header) :
    Except Err CliqueEngine :=
  c.verifyHeader chain now header []

/-- The loop of `VerifyHeaders`, after some headers. -/
def verifyFrom (chain : Chain cr) (now : Nat) :
    CliqueEngine → List Header → List Header → List (Except Err Unit)
  | _, _, [] => []
  | c, earlier, header :: headers =>
    match c.verifyHeader chain now header earlier with
    | .error err => .error err :: verifyFrom chain now c (earlier ++ [header]) headers
    | .ok c => .ok () :: verifyFrom chain now c (earlier ++ [header]) headers

def VerifyHeaders (now : Nat) (headers : List Header) :
    List (Except Err Unit) :=
  verifyFrom chain now c [] headers

end

/-! ## What a snapshot is a snapshot of -/

theorem withHash_hash {snaps : List Snapshot} (h : withHash snaps hash = some s) :
    s.hash = hash := by
  have hfound := find?_some h
  exact of_decide_eq_true hfound

theorem withHash_cons {snap : Snapshot} (snaps : List Snapshot) :
    withHash (snap :: snaps) snap.hash = some snap :=
  find?_cons_of_pos (decide_eq_true rfl)

theorem addRecent_withHash (c : CliqueEngine) (snap : Snapshot) :
    withHash (c.addRecent snap).recents snap.hash = some snap := by
  rw [addRecent]
  split
  · exact withHash_cons _
  · split
    · exact withHash_cons _
    · exact withHash_cons _

/-- Without headers on top only the genesis block is trusted. -/
theorem trusted_zero (hpos : number ≠ 0) : c.trusted chain number 0 = .ok none := by
  rw [trusted]
  split
  · next h =>
      obtain ⟨-, hpiled | hgap⟩ := h.resolve_left hpos
      · exact absurd hpiled (Nat.not_lt_zero _)
      · rw [chain.no_gap number hpos hgap]
  · rfl

/-- A block whose snapshot is asked for, if it is the first one, is the genesis block. -/
def Rooted (chain : Chain cr) (number : UInt64) (hash : Hash) : Prop :=
  number = 0 → ∃ h, chain.getHeader hash number = some h

theorem trusted_hash (hroot : Rooted chain number hash)
    (h : c.trusted chain number 0 = .ok (some s)) : s.hash = hash := by
  by_cases hzero : number = 0
  · obtain ⟨g, hg⟩ := hroot hzero
    subst hzero
    rw [trusted, if_pos (.inl rfl), chain.one_genesis hg] at h
    dsimp only at h
    obtain ⟨signers, hsigners, h⟩ := ok_of_map h
    cases h
    exact (chain.header_key hg).1
  · rw [trusted_zero hzero] at h
    cases h

theorem lookup_hash (hroot : Rooted chain number hash)
    (h : c.lookup chain number hash 0 = .ok (some (s, c'))) : s.hash = hash := by
  rw [lookup] at h
  split at h
  · next hfound =>
      cases h
      exact withHash_hash hfound
  split at h
  · next hfound =>
      cases h
      split at hfound
      · exact withHash_hash hfound
      · cases hfound
  · cases htrusted : c.trusted chain number 0 with
    | error err =>
      rw [htrusted] at h
      cases h
    | ok found =>
      rw [htrusted] at h
      cases found with
      | none => cases h
      | some s' =>
        cases h
        exact trusted_hash hroot htrusted

theorem nextHeader_hash {parents' : List Header} {header : Header}
    (h : nextHeader chain number hash parents = .ok (header, parents')) :
    header.hash cr = hash := by
  rw [nextHeader] at h
  split at h
  · split at h
    · cases h
    · next hkey =>
        cases h
        exact not_not.mp (not_or.mp hkey).1
  · split at h
    · cases h
    · next hget =>
        cases h
        exact (chain.header_key hget).1

/-- The walk only adds headers. -/
theorem findSnapshot_headers {n : Nat} {headers' : List Header}
    (h : c.findSnapshot chain n hash parents headers = .ok (s, c', headers')) :
    ∃ more, headers' = headers ++ more := by
  induction n generalizing hash parents headers with
  | zero =>
    rw [findSnapshot] at h
    split at h
    · cases h
    · cases h
      exact ⟨[], (append_nil _).symm⟩
    · split at h
      · cases h
      · cases h
  | succ n ih =>
    rw [findSnapshot] at h
    split at h
    · cases h
    · cases h
      exact ⟨[], (append_nil _).symm⟩
    · split at h
      · cases h
      · obtain ⟨more, rfl⟩ := ih h
        exact ⟨_, append_assoc _ _ _⟩

/-- The walk finds the snapshot at once, or starts with the header it was asked about. -/
theorem findSnapshot_first {n : Nat} (hroot : Rooted chain (UInt64.ofNat n) hash)
    (h : c.findSnapshot chain n hash parents [] = .ok (s, c', headers)) :
    (headers = [] ∧ s.hash = hash) ∨ ∃ header more, headers = header :: more ∧
      header.hash cr = hash := by
  rw [findSnapshot] at h
  split at h
  · cases h
  · next hlookup =>
      cases h
      exact .inl ⟨rfl, lookup_hash hroot hlookup⟩
  · split at h
    · cases h
    · next header parents' hnext =>
        cases n with
        | zero => cases h
        | succ n =>
          obtain ⟨more, rfl⟩ := findSnapshot_headers h
          exact .inr ⟨header, more, rfl, nextHeader_hash hnext⟩

theorem apply_hash {config : Clique.Config} {s' : Snapshot} {cache cache' : SigLRU}
    (h : apply cr config headers s cache = .ok (s', cache')) :
    s'.hash = ((headers.getLast?.map (Clique.Header.hash cr)).getD s.hash) := by
  cases headers with
  | nil =>
    cases h
    rfl
  | cons first rest =>
    rw [apply] at h
    split at h
    · cases h
    split at h
    · cases h
    · split at h
      · cases h
      · cases h
        rw [getLast?_eq_getLast_of_ne_nil (cons_ne_nil _ _)]
        rfl

/-- The snapshot that is returned is that of the block, and it is in memory. -/
theorem snapshot_cached {snap : Snapshot} (hroot : Rooted chain number hash)
    (h : c.snapshot chain number hash parents = .ok (snap, c')) :
    withHash c'.recents hash = some snap := by
  rw [snapshot] at h
  split at h
  · cases h
  next s c₁ headers hfind =>
    split at h
    · cases h
    next snap₁ signatures happly =>
      have hhash : snap₁.hash = hash := by
        have hfirst := findSnapshot_first (by rw [UInt64.ofNat_toNat]; exact hroot) hfind
        rw [apply_hash happly, getLast?_reverse]
        obtain ⟨rfl, hs⟩ | ⟨header, more, rfl, hheader⟩ := hfirst
        · exact hs
        · exact hheader
      have hrecent := addRecent_withHash c₁ snap₁
      rw [hhash] at hrecent
      dsimp only at h
      split at h
      · cases h
        exact hrecent
      · cases h
        exact hrecent

/-! ## Parents in a batch and in the chain -/

theorem lookup_recent {piled : Nat} (h : withHash c.recents hash = some s) :
    c.lookup chain number hash piled = .ok (some (s, c.touch s)) := by
  rw [lookup, h]

theorem lookup_chain (chain chain' : Chain cr) (hash : Hash) (hpos : number ≠ 0) :
    c.lookup chain number hash 0 = c.lookup chain' number hash 0 := by
  rw [lookup, lookup, trusted_zero hpos, trusted_zero hpos]

/-- Behind an accepted header the walk makes one step at most, and it does not matter where the
step finds its header. -/
theorem snapshot_extends {last : Header} (hbatch : chain.Batch parent (earlier ++ [last]))
    (hext : chain.Extends (earlier ++ [last]) chain')
    (hrecent : withHash c.recents last.parentHash = some s) :
    c.snapshot chain (UInt64.ofNat last.number) (last.hash cr) (earlier ++ [last]) =
      c.snapshot chain' (UInt64.ofNat last.number) (last.hash cr) [] := by
  obtain ⟨-, hnumber, hlt, -⟩ := (contiguous_append.mp hbatch.contiguous).2
  obtain ⟨n, hn⟩ : ∃ n, last.number = n + 1 := ⟨_, hnumber⟩
  have hto : (UInt64.ofNat last.number).toNat = n + 1 := by
    rw [UInt64.toNat_ofNat', Nat.mod_eq_of_lt hlt, hn]
  have hpos : UInt64.ofNat (n + 1) ≠ 0 := by
    rw [← hn]
    intro hzero
    rw [hzero] at hto
    cases hto
  have hget := hbatch.getHeader_last hext
  rw [lastOf_append] at hget
  have hbatched : nextHeader chain (UInt64.ofNat (n + 1)) (last.hash cr) (earlier ++ [last]) =
      .ok (last, earlier) := by
    rw [nextHeader, getLast?_concat, dropLast_concat]
    exact if_neg (by rw [hn]; exact fun h => h.elim (fun h => h rfl) (fun h => h rfl))
  have hchained : nextHeader chain' (UInt64.ofNat (n + 1)) (last.hash cr) [] = .ok (last, []) := by
    rw [nextHeader, ← hn, getLast?_nil, hget]
  have hfind : c.findSnapshot chain (n + 1) (last.hash cr) (earlier ++ [last]) [] =
      c.findSnapshot chain' (n + 1) (last.hash cr) [] [] := by
    rw [findSnapshot, findSnapshot, length_nil, lookup_chain chain chain' _ hpos, hbatched,
      hchained]
    dsimp only
    rw [findSnapshot, findSnapshot, lookup_recent hrecent, lookup_recent hrecent]
  rw [snapshot, snapshot, hto, hfind]

theorem parentOf_extends (hbatch : chain.Batch parent (earlier ++ [h]))
    (hext : chain.Extends earlier chain') :
    parentOf chain' h [] = some (lastOf parent earlier) ∧
      parentOf chain h earlier = some (lastOf parent earlier) := by
  have hget := hbatch.getHeader_parent hext
  refine ⟨hget, ?_⟩
  cases earlier using reverseRecOn with
  | nil =>
    rw [hext.nil_eq rfl] at hget
    exact hget
  | append_singleton earlier last =>
    rw [parentOf, getLast?_concat, lastOf_append]

/-- The snapshot of the parent of the last header is in memory. -/
def Recent (c : CliqueEngine) (earlier : List Header) : Prop :=
  ∀ last, earlier.getLast? = some last → ∃ s, withHash c.recents last.parentHash = some s

/-- A header of a batch is verified as if the earlier ones were in the chain. -/
theorem verifyHeader_extends (hbatch : chain.Batch parent (earlier ++ [h]))
    (hext : chain.Extends earlier chain') (hrecent : c.Recent earlier) (now : Nat) :
    c.verifyHeader chain now h earlier = c.verifyHeader chain' now h [] := by
  cases earlier using reverseRecOn with
  | nil => rw [hext.nil_eq rfl]
  | append_singleton earlier last =>
    obtain ⟨hcont, hlink, hnumber, -⟩ := contiguous_append.mp hbatch.contiguous
    rw [lastOf_append] at hlink hnumber
    obtain ⟨s, hs⟩ := hrecent last (getLast?_concat ..)
    obtain ⟨hchained, hbatched⟩ := parentOf_extends hbatch hext
    rw [verifyHeader, verifyHeader, hext.config_eq, verifyCascadingFields,
      verifyCascadingFields, hchained, hbatched, hext.config_eq, uint64_pred hnumber, hlink,
      snapshot_extends ⟨hbatch.known, hcont⟩ hext hs]

/-- After a header is accepted the snapshot of its parent is in memory. -/
theorem verifyHeader_recent (hbatch : chain.Batch parent (earlier ++ [h])) {now : Nat}
    (hok : c.verifyHeader chain now h earlier = .ok c') : c'.Recent (earlier ++ [h]) := by
  obtain ⟨hcont, hlink, hnumber, hlt, -⟩ := contiguous_append.mp hbatch.contiguous
  have hpos : UInt64.ofNat h.number ≠ 0 := by
    intro hzero
    have hto := congrArg UInt64.toNat hzero
    rw [UInt64.toNat_ofNat', Nat.mod_eq_of_lt hlt, hnumber] at hto
    cases hto
  have hroot : Rooted chain (UInt64.ofNat h.number - 1) h.parentHash := by
    intro hzero
    cases earlier using reverseRecOn with
    | nil =>
      rw [hlink, uint64_pred hnumber]
      exact ⟨parent, hbatch.known⟩
    | append_singleton earlier last =>
      -- the numbers of a batch are not zero
      rw [lastOf_append] at hnumber
      obtain ⟨-, hlast, hltlast, -⟩ := (contiguous_append.mp hcont).2
      rw [uint64_pred hnumber] at hzero
      have hto := congrArg UInt64.toNat hzero
      rw [UInt64.toNat_ofNat', Nat.mod_eq_of_lt hltlast, hlast] at hto
      cases hto
  rw [verifyHeader] at hok
  split at hok
  · cases hok
  rw [verifyCascadingFields, if_neg hpos] at hok
  split at hok
  · cases hok
  split at hok
  · cases hok
  split at hok
  · cases hok
  split at hok
  · cases hok
  split at hok
  · cases hok
  split at hok
  · cases hok
  next snap c₁ hsnap =>
    split at hok
    · cases hok
    split at hok
    · cases hok
    cases hok
    intro last hlast
    rw [getLast?_concat] at hlast
    cases hlast
    have hcached := snapshot_cached hroot hsnap
    exact ⟨snap, hcached⟩

end CliqueEngine

end GoEthereum.Consensus

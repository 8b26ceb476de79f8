import GoEthereum.Clique.Assemble
import GoEthereum.Lib.Collections

/-!
# The voting snapshot and the seal

`consensus/clique/snapshot.go`: who may sign, who signed recently, and the votes that are
open. `apply` replays headers onto a snapshot, `verifySeal` checks one header against it.
Both have a rule that a signer may sign one of `len(signers)/2+1` blocks in a row: `apply`
deletes the entry that leaves this window, `verifySeal` compares with `number - limit`.
Near the genesis block the difference wraps, and `verifySeal` lets every signer pass.
-/

namespace GoEthereum.Clique.Voting

open List

variable {signer : Address} {config : Config} {cr : Crypto} {h : Header} {headers : List Header}
  {m : Nat} {cache cache' : SigLRU} {α : Type} {n : UInt64}

/-! ## Snapshots -/

/-- The errors of `apply` and `verifySeal`. -/
inductive Err where
  | errUnknownBlock
  | errInvalidVotingChain
  | errUnauthorizedSigner
  | errRecentlySigned
  | errInvalidVote
  | errWrongDifficulty
  | recover (err : Clique.Err)
  | panic (p : Panic)
deriving DecidableEq

structure Vote where
  signer : Address
  block : UInt64
  address : Address
  authorize : Bool
deriving DecidableEq

structure Tally where
  authorize : Bool
  votes : Nat
deriving DecidableEq

/-- `Snapshot`, without its configuration and its signature cache. -/
structure Snapshot where
  number : UInt64
  hash : Hash
  signers : Finset Address
  recents : Map UInt64 Address
  votes : List Vote
  tally : Map Address Tally

/-- `common.Address.Cmp`, as an order. -/
def addressLE (a b : Address) : Prop := a.1 ≤ b.1

variable {snap snap' : Snapshot}

instance : DecidableRel addressLE := fun a b => inferInstanceAs (Decidable (a.1 ≤ b.1))

instance : IsTrans Address addressLE := ⟨fun _ _ _ => List.le_trans⟩

instance : Std.Antisymm addressLE := ⟨fun _ _ h h' => Subtype.ext (List.le_antisymm h h')⟩

instance : Std.Total addressLE := ⟨fun a b => List.le_total a.1 b.1⟩

namespace Snapshot

variable (snap : Snapshot)

def newSnapshot (number : UInt64) (hash : Hash) (signers : List Address) : Snapshot where
  number := number
  hash := hash
  signers := signers.toFinset
  recents := ∅
  votes := []
  tally := ∅

/-- `signers()`, in ascending order. -/
def ascending : List Address := snap.signers.sort addressLE

def inturn (number : UInt64) (signer : Address) : Except Panic Bool :=
  Clique.Snapshot.inturn ⟨snap.number.toNat, snap.ascending⟩ number.toNat signer

/-- `uint64(len(snap.Signers)/2 + 1)`. -/
def limit : UInt64 := UInt64.ofNat (snap.signers.card / 2 + 1)

def validVote (address : Address) (authorize : Bool) : Bool :=
  (decide (address ∈ snap.signers) && !authorize) || (!decide (address ∈ snap.signers) && authorize)

/-- `cast`, with the vote that is appended if it counts. -/
def cast (vote : Vote) : Snapshot :=
  if snap.validVote vote.address vote.authorize then
    let tally :=
      match snap.tally.lookup vote.address with
      | some old => { old with votes := old.votes + 1 }
      | none => { authorize := vote.authorize, votes := 1 }
    { snap with
      tally := snap.tally.insert vote.address tally
      votes := snap.votes ++ [vote] }
  else snap

def uncast (address : Address) (authorize : Bool) : Snapshot :=
  match snap.tally.lookup address with
  | none => snap
  | some tally =>
    if tally.authorize ≠ authorize then snap
    else if tally.votes > 1 then
      { snap with tally := snap.tally.insert address { tally with votes := tally.votes - 1 } }
    else { snap with tally := snap.tally.erase address }

/-- The first vote of a signer about an address is uncast and discarded. -/
def discardOwn (signer address : Address) : Snapshot :=
  match snap.votes.find? fun v => decide (v.signer = signer ∧ v.address = address) with
  | none => snap
  | some vote =>
    { snap.uncast vote.address vote.authorize with votes := snap.votes.erase vote }

/-- The votes of a signer that was dropped are uncast and discarded. -/
def discardAll (signer : Address) : Snapshot :=
  let dropped := snap.votes.filter fun v => decide (v.signer = signer)
  let uncasted := dropped.foldl (fun s v => s.uncast v.address v.authorize) snap
  { uncasted with votes := snap.votes.filter fun v => decide (v.signer ≠ signer) }

/-- The signer that leaves the window may sign again. -/
def shiftOut (number : UInt64) : Snapshot :=
  if number ≥ snap.limit then { snap with recents := snap.recents.erase (number - snap.limit) }
  else snap

/-- The change of the signers once a vote has passed. -/
def decided (number : UInt64) (address : Address) (authorize : Bool) : Snapshot :=
  let snap :=
    if authorize then { snap with signers := insert address snap.signers }
    else
      let snap := { snap with signers := snap.signers.erase address }
      (snap.shiftOut number).discardAll address
  { snap with
    votes := snap.votes.filter fun v => decide (v.address ≠ address)
    tally := snap.tally.erase address }

/-- The effect of a tally on the signers. -/
def settle (number : UInt64) (address : Address) : Snapshot :=
  match snap.tally.lookup address with
  | some tally =>
    if tally.votes > snap.signers.card / 2 then snap.decided number address tally.authorize
    else snap
  | none => snap

/-- Whether some recent block is the signer's. -/
def signedRecently (signer : Address) : Prop :=
  ∃ seen ∈ snap.recents.keys, snap.recents.lookup seen = some signer

instance (snap : Snapshot) (signer : Address) : Decidable (snap.signedRecently signer) :=
  inferInstanceAs (Decidable (∃ seen ∈ snap.recents.keys, _))

end Snapshot

/-- `ecrecover`, with its failures as errors. -/
def recoverSigner (cr : Crypto) (h : Header) (sigcache : SigLRU) : Except Err (Address × SigLRU) :=
  match ecrecover cr h sigcache with
  | .error p => .error (.panic p)
  | .ok (_, some err, _) => .error (.recover err)
  | .ok (signer, none, sigcache) => .ok (signer, sigcache)

/-- The vote of a header. -/
def voteOf (nonce : Bytes) : Except Err Bool :=
  if nonce = nonceAuthVote then .ok true
  else if nonce = nonceDropVote then .ok false
  else .error .errInvalidVote

/-- The checks of `apply` on one header, and the entry of its signer. -/
def authorized (signer : Address) (number : UInt64) (snap : Snapshot) : Except Err Snapshot :=
  if signer ∉ snap.signers then .error .errUnauthorizedSigner
  else if snap.signedRecently signer then .error .errRecentlySigned
  else .ok { snap with recents := snap.recents.insert number signer }

/-- Votes end at the checkpoints. -/
def checkpoint (config : Config) (number : UInt64) (snap : Snapshot) : Snapshot :=
  if number.toNat % config.epoch = 0 then { snap with votes := [], tally := ∅ } else snap

/-- The body of the loop of `apply`. -/
def applyHeader (cr : Crypto) (config : Config) (h : Header) (snap : Snapshot)
    (sigcache : SigLRU) : Except Err (Snapshot × SigLRU) :=
  let number := UInt64.ofNat h.number
  if config.epoch = 0 then .error (.panic .divideByZero)
  else
    let snap := (checkpoint config number snap).shiftOut number
    match recoverSigner cr h sigcache with
    | .error err => .error err
    | .ok (signer, sigcache) =>
      match authorized signer number snap with
      | .error err => .error err
      | .ok snap =>
        let snap := snap.discardOwn signer h.coinbase
        match voteOf h.nonce with
        | .error err => .error err
        | .ok authorize =>
          let snap := snap.cast ⟨signer, number, h.coinbase, authorize⟩
          .ok (snap.settle number h.coinbase, sigcache)

/-- The loop of `apply`. -/
def applyHeaders (cr : Crypto) (config : Config) :
    List Header → Snapshot → SigLRU → Except Err (Snapshot × SigLRU)
  | [], snap, sigcache => .ok (snap, sigcache)
  | h :: headers, snap, sigcache =>
    match applyHeader cr config h snap sigcache with
    | .error err => .error err
    | .ok (snap, sigcache) => applyHeaders cr config headers snap sigcache

/-- The sanity check of `apply`. -/
def consecutive : List Header → Bool
  | h :: h' :: headers =>
    decide (UInt64.ofNat h'.number = UInt64.ofNat h.number + 1) && consecutive (h' :: headers)
  | _ => true

def apply (cr : Crypto) (config : Config) (headers : List Header) (s : Snapshot)
    (sigcache : SigLRU) : Except Err (Snapshot × SigLRU) :=
  match headers with
  | [] => .ok (s, sigcache)
  | first :: rest =>
    if !consecutive (first :: rest) then .error .errInvalidVotingChain
    else if UInt64.ofNat first.number ≠ s.number + 1 then .error .errInvalidVotingChain
    else
      match applyHeaders cr config (first :: rest) s sigcache with
      | .error err => .error err
      | .ok (snap, sigcache) =>
        .ok ({ snap with
          number := snap.number + UInt64.ofNat (first :: rest).length
          hash := ((first :: rest).getLast (cons_ne_nil _ _)).hash cr }, sigcache)

/-- The check of `verifySeal` for recent blocks of the signer: those that the block does not
shift out. -/
def blockedRecently (snap : Snapshot) (number : UInt64) (signer : Address) : Prop :=
  ∃ seen ∈ snap.recents.keys, snap.recents.lookup seen = some signer ∧ seen > number - snap.limit

instance (snap : Snapshot) (number : UInt64) (signer : Address) :
    Decidable (blockedRecently snap number signer) :=
  inferInstanceAs (Decidable (∃ seen ∈ snap.recents.keys, _))

/-- The last check of `verifySeal`. -/
def verifyDifficulty (fakeDiff : Bool) (snap : Snapshot) (h : Header) (signer : Address) :
    Except Err Unit :=
  if fakeDiff then .ok ()
  else
    match snap.inturn (UInt64.ofNat h.number) signer with
    | .error p => .error (.panic p)
    | .ok inturn =>
      if inturn ∧ h.difficulty ≠ diffInTurn then .error .errWrongDifficulty
      else if ¬ inturn ∧ h.difficulty ≠ diffNoTurn then .error .errWrongDifficulty
      else .ok ()

def verifySeal (cr : Crypto) (fakeDiff : Bool) (snap : Snapshot) (h : Header)
    (signatures : SigLRU) : Except Err SigLRU :=
  let number := UInt64.ofNat h.number
  if number = 0 then .error .errUnknownBlock
  else
    match recoverSigner cr h signatures with
    | .error err => .error err
    | .ok (signer, signatures) =>
      if signer ∉ snap.signers then .error .errUnauthorizedSigner
      else if blockedRecently snap number signer then .error .errRecentlySigned
      else
        match verifyDifficulty fakeDiff snap h signer with
        | .error err => .error err
        | .ok () => .ok signatures

/-! ## What a header changes -/

/-- Only votes and tallies differ. -/
structure Alike (snap snap' : Snapshot) : Prop where
  number : snap'.number = snap.number
  signers : snap'.signers = snap.signers
  recents : snap'.recents = snap.recents

theorem Alike.trans {s s' s'' : Snapshot} (h : Alike s s') (h' : Alike s' s'') : Alike s s'' :=
  ⟨h'.number.trans h.number, h'.signers.trans h.signers, h'.recents.trans h.recents⟩

theorem uncast_alike (snap : Snapshot) (address : Address) (authorize : Bool) :
    Alike snap (snap.uncast address authorize) := by
  unfold Snapshot.uncast
  split
  · exact ⟨rfl, rfl, rfl⟩
  split
  · exact ⟨rfl, rfl, rfl⟩
  · split
    · exact ⟨rfl, rfl, rfl⟩
    · exact ⟨rfl, rfl, rfl⟩

theorem foldl_uncast_alike (snap : Snapshot) (votes : List Vote) :
    Alike snap (votes.foldl (fun s v => s.uncast v.address v.authorize) snap) := by
  induction votes generalizing snap with
  | nil => exact ⟨rfl, rfl, rfl⟩
  | cons v votes ih => exact (uncast_alike snap v.address v.authorize).trans (ih _)

theorem discardOwn_alike (snap : Snapshot) (signer address : Address) :
    Alike snap (snap.discardOwn signer address) := by
  unfold Snapshot.discardOwn
  split
  · exact ⟨rfl, rfl, rfl⟩
  · have halike := uncast_alike snap
    exact ⟨(halike _ _).number, (halike _ _).signers, (halike _ _).recents⟩

theorem discardAll_alike (snap : Snapshot) (signer : Address) :
    Alike snap (snap.discardAll signer) := by
  have halike := foldl_uncast_alike snap (snap.votes.filter fun v => decide (v.signer = signer))
  exact ⟨halike.number, halike.signers, halike.recents⟩

theorem cast_alike (snap : Snapshot) (vote : Vote) : Alike snap (snap.cast vote) := by
  unfold Snapshot.cast
  split
  · exact ⟨rfl, rfl, rfl⟩
  · exact ⟨rfl, rfl, rfl⟩

theorem checkpoint_alike (config : Config) (number : UInt64) (snap : Snapshot) :
    Alike snap (checkpoint config number snap) := by
  unfold checkpoint
  split
  · exact ⟨rfl, rfl, rfl⟩
  · exact ⟨rfl, rfl, rfl⟩

theorem shiftOut_frame (snap : Snapshot) (number : UInt64) :
    (snap.shiftOut number).number = snap.number ∧
      (snap.shiftOut number).signers = snap.signers := by
  unfold Snapshot.shiftOut
  split
  · exact ⟨rfl, rfl⟩
  · exact ⟨rfl, rfl⟩

/-! ## The window of recent blocks -/

/-- At height `m` the recent blocks are among the last `len(signers)/2+1`. The number of
signers that were added is at most that of the blocks. -/
structure Window (m : Nat) (snap : Snapshot) : Prop where
  recent : ∀ {k : UInt64} {v : Address}, snap.recents.lookup k = some v →
    k.toNat ≤ m ∧ m < k.toNat + (snap.signers.card / 2 + 1)
  count : snap.signers.card ≤ 2 ^ 63 + m

theorem limit_toNat (hcount : snap.signers.card ≤ 2 ^ 63 + m) (hm : m < 2 ^ 64) :
    snap.limit.toNat = snap.signers.card / 2 + 1 := by
  rw [Snapshot.limit, UInt64.toNat_ofNat', Nat.mod_eq_of_lt]
  omega

/-- The entry that leaves the window is gone, the others stay. -/
theorem shiftOut_lookup (hlimit : snap.limit.toNat = snap.signers.card / 2 + 1) {k : UInt64} :
    (snap.shiftOut n).recents.lookup k =
      if k.toNat + (snap.signers.card / 2 + 1) = n.toNat then none
      else snap.recents.lookup k := by
  rw [Snapshot.shiftOut]
  by_cases hle : n ≥ snap.limit
  · have hle' : snap.limit.toNat ≤ n.toNat := UInt64.le_iff_toNat_le.mp hle
    have hsub : (n - snap.limit).toNat = n.toNat - snap.limit.toNat :=
      UInt64.toNat_sub_of_le _ _ hle
    have hiff : k = n - snap.limit ↔ k.toNat + (snap.signers.card / 2 + 1) = n.toNat := by
      rw [← UInt64.toNat_inj, hsub]
      omega
    rw [if_pos hle]
    show (snap.recents.erase (n - snap.limit)).lookup k = _
    rw [Map.lookup_erase_ite]
    simp only [hiff]
  · have hlt : ¬ snap.limit.toNat ≤ n.toNat := fun h => hle (UInt64.le_iff_toNat_le.mpr h)
    rw [if_neg hle, if_neg (by omega)]

theorem decided_signers (snap : Snapshot) (n : UInt64) (address : Address) (authorize : Bool) :
    (snap.decided n address authorize).signers =
      if authorize then insert address snap.signers else snap.signers.erase address := by
  cases authorize with
  | true => rfl
  | false =>
    let fewer : Snapshot := { snap with signers := snap.signers.erase address }
    exact (discardAll_alike (fewer.shiftOut n) address).signers.trans (shiftOut_frame fewer n).2

theorem settle_cases (snap : Snapshot) (n : UInt64) (address : Address) :
    snap.settle n address = snap ∨
      ∃ authorize, snap.settle n address = snap.decided n address authorize := by
  unfold Snapshot.settle
  split
  · split
    · exact .inr ⟨_, rfl⟩
    · exact .inl rfl
  · exact .inl rfl

/-- The signers change by one at most. Of the window the entry that leaves it is removed when it
shrinks, and no other one. -/
theorem settle_recents (hcount : snap.signers.card ≤ 2 ^ 63 + n.toNat) (address : Address) :
    ∃ len, (snap.settle n address).signers.card = len ∧
      (snap.settle n address).number = snap.number ∧
      len ≤ snap.signers.card + 1 ∧ snap.signers.card ≤ len + 1 ∧
      ∀ k : UInt64, (snap.settle n address).recents.lookup k = snap.recents.lookup k ∧
          (snap.signers.card ≤ len ∨ k.toNat + (len / 2 + 1) ≠ n.toNat) ∨
        (snap.settle n address).recents.lookup k = none ∧ k.toNat + (len / 2 + 1) = n.toNat := by
  rcases settle_cases snap n address with heq | ⟨authorize, heq⟩
  · rw [heq]
    exact ⟨_, rfl, rfl, Nat.le_succ _, Nat.le_succ _, fun k => .inl ⟨rfl, .inl le_rfl⟩⟩
  rw [heq, decided_signers]
  cases authorize with
  | true =>
    have hle := Finset.card_le_card (Finset.subset_insert address snap.signers)
    exact ⟨_, rfl, rfl, Finset.card_insert_le _ _, hle.trans (Nat.le_succ _),
      fun k => .inl ⟨rfl, .inl hle⟩⟩
  | false =>
    let fewer : Snapshot := { snap with signers := snap.signers.erase address }
    have halike := discardAll_alike (fewer.shiftOut n) address
    have hle := Finset.card_le_card (Finset.erase_subset address snap.signers)
    have hge := Finset.pred_card_le_card_erase (s := snap.signers) (a := address)
    have hfewer : fewer.signers.card ≤ 2 ^ 63 + n.toNat := hle.trans hcount
    refine ⟨_, rfl, halike.number.trans (shiftOut_frame fewer n).1, hle.trans (Nat.le_succ _),
      Nat.sub_le_iff_le_add.mp hge, fun k => ?_⟩
    have hrec : (snap.decided n address false).recents.lookup k = _ :=
      (congrArg (Finmap.lookup k) halike.recents).trans
        (shiftOut_lookup (limit_toNat hfewer n.toNat_lt))
    rw [hrec]
    split
    · next hk => exact .inr ⟨rfl, hk⟩
    · next hk => exact .inl ⟨rfl, .inr hk⟩

theorem settle_window (h : Window n.toNat snap) (hcount : snap.signers.card < 2 ^ 63 + n.toNat)
    (address : Address) : Window n.toNat (snap.settle n address) ∧
      (snap.settle n address).number = snap.number := by
  obtain ⟨len, rfl, hnumber, hgrow, hshrink, hrecents⟩ := settle_recents hcount.le address
  refine ⟨⟨fun {k v} hk => ?_, by omega⟩, hnumber⟩
  rcases hrecents k with ⟨hsame, hin⟩ | ⟨hnone, -⟩
  · rw [hsame] at hk
    have hbounds := h.recent hk
    omega
  · rw [hnone] at hk
    cases hk

/-- The snapshot before the signer of a header is looked at. -/
def shifted (config : Config) (n : UInt64) (snap : Snapshot) : Snapshot :=
  (checkpoint config n snap).shiftOut n

theorem shifted_signers (config : Config) (n : UInt64) (snap : Snapshot) :
    (shifted config n snap).signers = snap.signers := by
  rw [shifted, (shiftOut_frame _ n).2, (checkpoint_alike config n snap).signers]

theorem shifted_lookup (hlimit : snap.limit.toNat = snap.signers.card / 2 + 1) {k : UInt64} :
    (shifted config n snap).recents.lookup k =
      if k.toNat + (snap.signers.card / 2 + 1) = n.toNat then none
      else snap.recents.lookup k := by
  have halike := checkpoint_alike config n snap
  have hlimit' : (checkpoint config n snap).limit.toNat =
      (checkpoint config n snap).signers.card / 2 + 1 := by
    rw [Snapshot.limit, halike.signers]
    exact hlimit
  rw [shifted, shiftOut_lookup hlimit', halike.signers, halike.recents]

theorem Window.alike (h : Window m snap) (halike : Alike snap snap') : Window m snap' := by
  constructor
  · intro k v hk
    rw [halike.signers]
    rw [halike.recents] at hk
    exact h.recent hk
  · rw [halike.signers]
    exact h.count

/-- The snapshot once a header has its entry and its vote is cast. -/
def voted (config : Config) (h : Header) (signer : Address) (authorize : Bool) (snap : Snapshot) :
    Snapshot :=
  let number := UInt64.ofNat h.number
  let snap := shifted config number snap
  let snap := { snap with recents := snap.recents.insert number signer }
  (snap.discardOwn signer h.coinbase).cast ⟨signer, number, h.coinbase, authorize⟩

/-- What `apply` has done when it accepts a header. -/
theorem applyHeader_ok (happly : applyHeader cr config h snap cache = .ok (snap', cache')) :
    ∃ signer authorize, recoverSigner cr h cache = .ok (signer, cache') ∧
      voteOf h.nonce = .ok authorize ∧ signer ∈ snap.signers ∧
      ¬ (shifted config (UInt64.ofNat h.number) snap).signedRecently signer ∧
      snap' = (voted config h signer authorize snap).settle (UInt64.ofNat h.number) h.coinbase := by
  rw [applyHeader] at happly
  dsimp only at happly
  split at happly
  · cases happly
  next hepoch =>
  rw [← shifted] at happly
  split at happly
  · cases happly
  next signer cache₁ hrecover =>
  rw [authorized] at happly
  by_cases hmem : signer ∉ (shifted config (UInt64.ofNat h.number) snap).signers
  · rw [if_pos hmem] at happly
    cases happly
  rw [if_neg hmem] at happly
  by_cases hrecent : (shifted config (UInt64.ofNat h.number) snap).signedRecently signer
  · rw [if_pos hrecent] at happly
    cases happly
  rw [if_neg hrecent] at happly
  cases hvote : voteOf h.nonce with
  | error err =>
    rw [hvote] at happly
    cases happly
  | ok authorize =>
    rw [hvote] at happly
    cases happly
    rw [shifted_signers, not_not] at hmem
    exact ⟨signer, authorize, hrecover, rfl, hmem, hrecent, rfl⟩

theorem voted_alike (config : Config) (h : Header) (signer : Address) (authorize : Bool)
    (snap : Snapshot) : Alike
      { shifted config (UInt64.ofNat h.number) snap with
        recents := (shifted config (UInt64.ofNat h.number) snap).recents.insert
          (UInt64.ofNat h.number) signer }
      (voted config h signer authorize snap) :=
  (discardOwn_alike _ signer h.coinbase).trans (cast_alike _ _)

/-- A header moves the window on by one block. -/
theorem applyHeader_window (hw : Window m snap) (hn : (UInt64.ofNat h.number).toNat = m + 1)
    (happly : applyHeader cr config h snap cache = .ok (snap', cache')) :
    Window (m + 1) snap' ∧ snap'.number = snap.number := by
  obtain ⟨signer, authorize, -, -, -, -, rfl⟩ := applyHeader_ok happly
  have halike := voted_alike config h signer authorize snap
  generalize voted config h signer authorize snap = snap₁ at halike ⊢
  generalize UInt64.ofNat h.number = n at hn halike ⊢
  have hlt := n.toNat_lt
  have hcount := hw.count
  have hlimit := limit_toNat hw.count (show m < 2 ^ 64 by omega)
  have hinserted : Window n.toNat { shifted config n snap with
      recents := (shifted config n snap).recents.insert n signer } := by
    constructor
    · intro k v hk
      show _ ∧ n.toNat < k.toNat + ((shifted config n snap).signers.card / 2 + 1)
      rw [shifted_signers]
      have hk' : ((shifted config n snap).recents.insert n signer).lookup k = some v := hk
      rw [Map.lookup_insert_ite] at hk'
      by_cases hkn : k = n
      · rw [hkn]
        omega
      rw [if_neg hkn, shifted_lookup hlimit] at hk'
      split at hk'
      · cases hk'
      · have hbounds := hw.recent hk'
        omega
    · show (shifted config n snap).signers.card ≤ _
      rw [shifted_signers]
      omega
  rw [← hn]
  have hroom : (shifted config n snap).signers.card < 2 ^ 63 + n.toNat := by
    rw [shifted_signers]
    omega
  rw [← halike.signers] at hroom
  obtain ⟨hsettled, hnumber⟩ := settle_window (hinserted.alike halike) hroom h.coinbase
  refine ⟨hsettled, hnumber.trans (halike.number.trans ?_)⟩
  exact (shiftOut_frame _ n).1.trans (checkpoint_alike config n snap).number

/-! ## Reachable snapshots -/

/-- The headers of a chain, from a height on. -/
def Numbered : Nat → List Header → Prop
  | _, [] => True
  | m, h :: headers => h.number = m + 1 ∧ h.number < 2 ^ 64 ∧ Numbered (m + 1) headers

/-- The snapshots that `apply` makes from the signers of a genesis block, with any state of
the signature cache. -/
inductive Reachable (cr : Crypto) (config : Config) : Snapshot → Prop where
  | genesis (hash : Hash) (signers : List Address) (hlen : signers.length < 2 ^ 63) :
      Reachable cr config (.newSnapshot 0 hash signers)
  | apply {snap snap' : Snapshot} {headers : List Header} {cache cache' : SigLRU}
      (h : Reachable cr config snap) (hnumbered : Numbered snap.number.toNat headers)
      (happly : apply cr config headers snap cache = .ok (snap', cache')) :
      Reachable cr config snap'

/-- The numbers of the headers as `apply` reads them. -/
def Counts : Nat → List Header → Prop
  | _, [] => True
  | m, h :: headers => (UInt64.ofNat h.number).toNat = m + 1 ∧ Counts (m + 1) headers

theorem applyHeaders_window (hw : Window m snap) (hcounts : Counts m headers)
    (happly : applyHeaders cr config headers snap cache = .ok (snap', cache')) :
    Window (m + headers.length) snap' ∧ snap'.number = snap.number := by
  induction headers generalizing snap cache m with
  | nil =>
    cases happly
    exact ⟨hw, rfl⟩
  | cons h headers ih =>
    rw [applyHeaders] at happly
    split at happly
    · cases happly
    next snap₁ cache₁ hone =>
    obtain ⟨hw₁, hnumber₁⟩ := applyHeader_window hw hcounts.1 hone
    obtain ⟨hw', hnumber'⟩ := ih hw₁ hcounts.2 happly
    rw [length_cons, Nat.add_comm headers.length, ← Nat.add_assoc]
    exact ⟨hw', hnumber'.trans hnumber₁⟩

theorem Numbered.length_lt (h : Numbered m headers) (hm : m < 2 ^ 64) :
    m + headers.length < 2 ^ 64 := by
  induction headers generalizing m with
  | nil => exact hm
  | cons x headers ih =>
    have hlt := ih h.2.2 (by
      have hnumber := h.1
      have hbound := h.2.1
      omega)
    rw [length_cons]
    omega

theorem counts_of_consecutive {first : Header} (h : consecutive (first :: headers) = true)
    (hfirst : (UInt64.ofNat first.number).toNat = m + 1)
    (hlt : m + (first :: headers).length < 2 ^ 64) : Counts m (first :: headers) := by
  induction headers generalizing first m with
  | nil => exact ⟨hfirst, trivial⟩
  | cons second headers ih =>
    rw [consecutive, Bool.and_eq_true, decide_eq_true_eq] at h
    rw [length_cons, length_cons] at hlt
    refine ⟨hfirst, ih h.2 ?_ (by rw [length_cons]; omega)⟩
    rw [h.1, UInt64.toNat_add, hfirst, Nat.mod_eq_of_lt]
    · rfl
    · show m + 1 + 1 < 2 ^ 64
      omega

/-- `apply` is its loop, on headers with consecutive numbers. -/
theorem apply_ok (happly : apply cr config headers snap cache = .ok (snap', cache')) :
    ∃ last, applyHeaders cr config headers snap cache = .ok (last, cache') ∧
      snap' = { last with
        number := last.number + UInt64.ofNat headers.length
        hash := snap'.hash } ∧
      (snap.number.toNat + headers.length < 2 ^ 64 → Counts snap.number.toNat headers) := by
  cases headers with
  | nil =>
    rw [apply] at happly
    cases happly
    exact ⟨snap, rfl, by simp, fun _ => trivial⟩
  | cons first rest =>
    rw [apply] at happly
    split at happly
    · cases happly
    next hconsecutive =>
    split at happly
    · cases happly
    next hfirst =>
    split at happly
    · cases happly
    next last _ hloop =>
    cases happly
    refine ⟨last, hloop, rfl, fun hlt => ?_⟩
    have hnext : UInt64.ofNat first.number = snap.number + 1 := not_not.mp hfirst
    have hall : consecutive (first :: rest) = true := by simpa using hconsecutive
    refine counts_of_consecutive hall ?_ hlt
    rw [hnext, UInt64.toNat_add, Nat.mod_eq_of_lt]
    · rfl
    · show snap.number.toNat + 1 < 2 ^ 64
      rw [length_cons] at hlt
      omega

theorem window_genesis (hash : Hash) {signers : List Address} (hlen : signers.length < 2 ^ 63) :
    Window 0 (.newSnapshot 0 hash signers) := by
  constructor
  · intro k v hk
    have hnone : (∅ : Map UInt64 Address).lookup k = some v := hk
    rw [Finmap.lookup_empty] at hnone
    cases hnone
  · show signers.toFinset.card ≤ 2 ^ 63 + 0
    have hle := signers.toFinset_card_le
    omega

theorem apply_window (hw : Window snap.number.toNat snap)
    (hlt : snap.number.toNat + headers.length < 2 ^ 64)
    (happly : apply cr config headers snap cache = .ok (snap', cache')) :
    Window snap'.number.toNat snap' ∧ snap'.number.toNat = snap.number.toNat + headers.length := by
  obtain ⟨last, hloop, heq, hcounts⟩ := apply_ok happly
  obtain ⟨hlast, hsame⟩ := applyHeaders_window hw (hcounts hlt) hloop
  have hnumber : (last.number + UInt64.ofNat headers.length).toNat =
      snap.number.toNat + headers.length := by
    rw [hsame, UInt64.toNat_add, UInt64.toNat_ofNat',
      Nat.mod_eq_of_lt (show headers.length < 2 ^ 64 by omega), Nat.mod_eq_of_lt hlt]
  rw [heq]
  refine ⟨?_, hnumber⟩
  show Window (last.number + UInt64.ofNat headers.length).toNat _
  rw [hnumber]
  exact ⟨hlast.recent, hlast.count⟩

/-- In a reachable snapshot the recent blocks are the last ones. -/
theorem Reachable.window (h : Reachable cr config snap) : Window snap.number.toNat snap := by
  induction h with
  | genesis hash signers hlen => exact window_genesis hash hlen
  | @apply snap snap' headers cache cache' h hnumbered happly ih =>
    exact (apply_window ih (hnumbered.length_lt snap.number.toNat_lt) happly).1

/-! ## Seals -/

/-- Rejected as not authorised or as recently signed. -/
def Rejects {α : Type} (r : Except Err α) : Prop :=
  r = .error .errUnauthorizedSigner ∨ r = .error .errRecentlySigned

theorem not_rejects_ok (a : α) : ¬ Rejects (.ok a : Except Err α) := by
  simp [Rejects]

theorem rejects_error {err : Err} : Rejects (.error err : Except Err α) ↔
    err = .errUnauthorizedSigner ∨ err = .errRecentlySigned := by
  simp only [Rejects, Except.error.injEq]

theorem not_rejects_recover {err : Err} (hrecover : recoverSigner cr h cache = .error err) :
    ¬ Rejects (.error err : Except Err α) := by
  rw [rejects_error]
  rw [recoverSigner] at hrecover
  split at hrecover
  · obtain rfl := Except.error.inj hrecover
    simp
  · obtain rfl := Except.error.inj hrecover
    simp
  · cases hrecover

theorem not_rejects_difficulty {fakeDiff : Bool} {err : Err}
    (hdiff : verifyDifficulty fakeDiff snap h signer = .error err) :
    ¬ Rejects (.error err : Except Err α) := by
  rw [rejects_error]
  rw [verifyDifficulty] at hdiff
  split at hdiff
  · cases hdiff
  split at hdiff
  · obtain rfl := Except.error.inj hdiff
    simp
  · split_ifs at hdiff
    · obtain rfl := Except.error.inj hdiff
      simp
    · obtain rfl := Except.error.inj hdiff
      simp

/-- What `verifySeal` answers about a header whose signer is known. -/
theorem verifySeal_known {cr : Crypto} {fakeDiff : Bool} {snap : Snapshot} {h : Header}
    {cache cache' : SigLRU} {signer : Address} (hpos : UInt64.ofNat h.number ≠ 0)
    (hrecover : recoverSigner cr h cache = .ok (signer, cache')) :
    (Rejects (verifySeal cr fakeDiff snap h cache) ↔
      signer ∉ snap.signers ∨ blockedRecently snap (UInt64.ofNat h.number) signer) := by
  rw [verifySeal, if_neg hpos, hrecover]
  dsimp only
  by_cases hmem : signer ∉ snap.signers
  · rw [if_pos hmem]
    exact iff_of_true (Or.inl rfl) (.inl hmem)
  rw [if_neg hmem]
  by_cases hblocked : blockedRecently snap (UInt64.ofNat h.number) signer
  · rw [if_pos hblocked]
    exact iff_of_true (Or.inr rfl) (.inr hblocked)
  rw [if_neg hblocked]
  refine iff_of_false ?_ (by tauto)
  cases hdiff : verifyDifficulty fakeDiff snap h signer with
  | error err => exact not_rejects_difficulty hdiff
  | ok u => exact not_rejects_ok cache'

/-- Once the signer is known only `authorized` can refuse a header with a well-formed nonce. -/
theorem applyHeader_known {cr : Crypto} {config : Config} {snap : Snapshot} {h : Header}
    {cache cache' : SigLRU} {signer : Address} (hepoch : config.epoch ≠ 0)
    (hnonce : h.nonce = nonceAuthVote ∨ h.nonce = nonceDropVote)
    (hrecover : recoverSigner cr h cache = .ok (signer, cache')) :
    ∃ next : Snapshot → Snapshot, applyHeader cr config h snap cache =
      (authorized signer (UInt64.ofNat h.number)
        (shifted config (UInt64.ofNat h.number) snap)).map fun snap => (next snap, cache') := by
  have hvote : ∃ authorize, voteOf h.nonce = .ok authorize := by
    rw [voteOf]
    split
    · exact ⟨true, rfl⟩
    · next hne =>
        rw [if_pos (hnonce.resolve_left hne)]
        exact ⟨false, rfl⟩
  obtain ⟨authorize, hvote⟩ := hvote
  refine ⟨fun snap => ((snap.discardOwn signer h.coinbase).cast
    ⟨signer, UInt64.ofNat h.number, h.coinbase, authorize⟩).settle
      (UInt64.ofNat h.number) h.coinbase, ?_⟩
  rw [applyHeader, if_neg hepoch, hrecover]
  dsimp only
  rw [hvote, ← shifted]
  cases authorized signer (UInt64.ofNat h.number) (shifted config (UInt64.ofNat h.number) snap) with
  | error err => rfl
  | ok snap₁ => rfl

/-- On a single header `apply` answers as its loop body does. -/
theorem apply_single {cr : Crypto} {config : Config} {snap : Snapshot} {h : Header}
    {cache : SigLRU} (hnext : UInt64.ofNat h.number = snap.number + 1) :
    ∃ next : Snapshot × SigLRU → Snapshot × SigLRU,
      apply cr config [h] snap cache = (applyHeader cr config h snap cache).map next := by
  refine ⟨fun r => ({ r.1 with number := r.1.number + 1, hash := h.hash cr }, r.2), ?_⟩
  rw [apply, if_neg (by simp [consecutive]), if_neg (not_not.mpr hnext), applyHeaders]
  cases applyHeader cr config h snap cache with
  | error err => rfl
  | ok r => rfl

/-- What `apply` answers about the next header when its signer is known. -/
theorem apply_known (hepoch : config.epoch ≠ 0) (hnext : UInt64.ofNat h.number = snap.number + 1)
    (hnonce : h.nonce = nonceAuthVote ∨ h.nonce = nonceDropVote)
    (hrecover : recoverSigner cr h cache = .ok (signer, cache')) :
    (Rejects (apply cr config [h] snap cache) ∧ (signer ∉ snap.signers ∨
      (shifted config (UInt64.ofNat h.number) snap).signedRecently signer)) ∨
    ((∃ r, apply cr config [h] snap cache = .ok r) ∧ signer ∈ snap.signers ∧
      ¬ (shifted config (UInt64.ofNat h.number) snap).signedRecently signer) := by
  obtain ⟨next, happly⟩ := @apply_single cr config snap h cache hnext
  obtain ⟨next', hheader⟩ := @applyHeader_known cr config snap h _ _ _ hepoch hnonce hrecover
  rw [happly, hheader, authorized, shifted_signers]
  by_cases hmem : signer ∉ snap.signers
  · rw [if_pos hmem]
    exact .inl ⟨Or.inl rfl, .inl hmem⟩
  rw [if_neg hmem]
  by_cases hrecent : (shifted config (UInt64.ofNat h.number) snap).signedRecently signer
  · rw [if_pos hrecent]
    exact .inl ⟨Or.inr rfl, .inr hrecent⟩
  · rw [if_neg hrecent]
    exact .inr ⟨⟨_, rfl⟩, not_not.mp hmem, hrecent⟩

theorem signedRecently_iff :
    snap.signedRecently signer ↔ ∃ k, snap.recents.lookup k = some signer := by
  constructor
  · rintro ⟨k, -, hk⟩
    exact ⟨k, hk⟩
  · rintro ⟨k, hk⟩
    exact ⟨k, Finmap.mem_keys.mpr (Finmap.mem_of_lookup_eq_some hk), hk⟩

theorem blockedRecently_iff : blockedRecently snap n signer ↔
      ∃ k, snap.recents.lookup k = some signer ∧ k > n - snap.limit := by
  constructor
  · rintro ⟨k, -, hk⟩
    exact ⟨k, hk⟩
  · rintro ⟨k, hk⟩
    exact ⟨k, Finmap.mem_keys.mpr (Finmap.mem_of_lookup_eq_some hk.1), hk⟩

/-- From the limit on the two rules are one. -/
theorem blockedRecently_high {config : Config} {snap : Snapshot} {m : Nat} {n : UInt64}
    {signer : Address} (hw : Window m snap) (hn : n.toNat = m + 1)
    (hhigh : snap.signers.card / 2 + 1 ≤ m + 1) :
    blockedRecently snap n signer ↔ (shifted config n snap).signedRecently signer := by
  have hlimit := limit_toNat hw.count (show m < 2 ^ 64 by have hlt := n.toNat_lt; omega)
  have hsub : (n - snap.limit).toNat = n.toNat - snap.limit.toNat :=
    UInt64.toNat_sub_of_le _ _ (UInt64.le_iff_toNat_le.mpr (by omega))
  rw [blockedRecently_iff, signedRecently_iff]
  constructor
  · rintro ⟨k, hk, hgt⟩
    have hgt' := UInt64.lt_iff_toNat_lt.mp hgt
    refine ⟨k, ?_⟩
    rw [shifted_lookup hlimit, if_neg (by omega)]
    exact hk
  · rintro ⟨k, hk⟩
    rw [shifted_lookup hlimit] at hk
    split at hk
    · cases hk
    · have hbounds := hw.recent hk
      exact ⟨k, hk, UInt64.lt_iff_toNat_lt.mpr (by omega)⟩

/-- Below the limit `number - limit` wraps and `verifySeal` blocks no one. -/
theorem not_blockedRecently_low (hw : Window m snap) (hn : n.toNat = m + 1)
    (hlow : m + 1 < snap.signers.card / 2 + 1) : ¬ blockedRecently snap n signer := by
  have hlt := n.toNat_lt
  have hcount := hw.count
  have hlimit := limit_toNat hw.count (show m < 2 ^ 64 by omega)
  rw [blockedRecently_iff]
  rintro ⟨k, hk, hgt⟩
  have hgt' := UInt64.lt_iff_toNat_lt.mp hgt
  have hbounds := hw.recent hk
  rw [UInt64.toNat_sub, hlimit, hn, Nat.mod_eq_of_lt (by omega)] at hgt'
  omega

/-- Below the limit nothing is shifted out. -/
theorem shifted_low (hw : Window m snap) (hn : n.toNat = m + 1)
    (hlow : m + 1 < snap.signers.card / 2 + 1) :
    (shifted config n snap).signedRecently signer ↔ snap.signedRecently signer := by
  have hlimit := limit_toNat hw.count (show m < 2 ^ 64 by have hlt := n.toNat_lt; omega)
  rw [signedRecently_iff, signedRecently_iff]
  refine exists_congr fun k => ?_
  rw [shifted_lookup hlimit, if_neg (by omega)]

/-- What slips through is the one thing `apply` refuses and `verifySeal` does not. -/
theorem blocked_iff_slips {config : Config} {snap : Snapshot} {m : Nat} {n : UInt64}
    {signer : Address} (hw : Window m snap) (hn : n.toNat = m + 1) :
    signer ∉ snap.signers ∨ blockedRecently snap n signer ↔
      (signer ∉ snap.signers ∨ (shifted config n snap).signedRecently signer) ∧
        ¬ (signer ∈ snap.signers ∧ m + 1 < snap.signers.card / 2 + 1 ∧
          snap.signedRecently signer) := by
  by_cases hlow : m + 1 < snap.signers.card / 2 + 1
  · constructor
    · rintro (hmem | hblocked)
      · exact ⟨.inl hmem, fun hslip => hmem hslip.1⟩
      · exact absurd hblocked (not_blockedRecently_low hw hn hlow)
    · rintro ⟨hmem | hrecent, hslip⟩
      · exact .inl hmem
      · exact .inl fun hmem => hslip ⟨hmem, hlow, (shifted_low hw hn hlow).mp hrecent⟩
  · rw [@blockedRecently_high config snap m n signer hw hn (not_lt.mp hlow)]
    exact (and_iff_left fun hslip => hlow hslip.2.1).symm

/-- The snapshot with which both rules disagree: the block is so low that its number is less
than the limit, and its signer signed a recent block. -/
def Slips (cr : Crypto) (snap : Snapshot) (h : Header) (cache : SigLRU) : Prop :=
  ∃ signer cache', recoverSigner cr h cache = .ok (signer, cache') ∧ signer ∈ snap.signers ∧
    h.number < snap.signers.card / 2 + 1 ∧ snap.signedRecently signer

/-- `verifySeal` and `apply` refuse the same signers of the next block, and what the one accepts
so does the other, exactly if the block does not slip through. `New` sets the epoch. -/
theorem verifySeal_agrees_iff (cr : Crypto) (config : Config) (hepoch : config.epoch ≠ 0)
    (snap : Snapshot) (hreach : Reachable cr config snap) (h : Header)
    (hnext : Numbered snap.number.toNat [h])
    (hnonce : h.nonce = nonceAuthVote ∨ h.nonce = nonceDropVote) (fakeDiff : Bool)
    (cache : SigLRU) :
    ((Rejects (verifySeal cr fakeDiff snap h cache) ↔ Rejects (apply cr config [h] snap cache)) ∧
      ∀ cache', verifySeal cr fakeDiff snap h cache = .ok cache' →
        ∃ r, apply cr config [h] snap cache = .ok r) ↔ ¬ Slips cr snap h cache := by
  obtain ⟨hnumber, hlt, -⟩ := hnext
  have hw := hreach.window
  have hn : (UInt64.ofNat h.number).toNat = snap.number.toNat + 1 := by
    rw [UInt64.toNat_ofNat', Nat.mod_eq_of_lt hlt, hnumber]
  have hsucc : UInt64.ofNat h.number = snap.number + 1 := by
    rw [← UInt64.toNat_inj, hn, UInt64.toNat_add, Nat.mod_eq_of_lt]
    · rfl
    · show snap.number.toNat + 1 < 2 ^ 64
      omega
  have hpos : UInt64.ofNat h.number ≠ 0 := by
    intro hzero
    rw [hzero] at hn
    cases hn
  cases hrecover : recoverSigner cr h cache with
  | error err =>
    have hverify : verifySeal cr fakeDiff snap h cache = .error err := by
      rw [verifySeal, if_neg hpos, hrecover]
    have happly : apply cr config [h] snap cache = .error err := by
      obtain ⟨next, heq⟩ := @apply_single cr config snap h cache hsucc
      rw [heq, applyHeader, if_neg hepoch, hrecover]
      rfl
    rw [hverify, happly]
    refine iff_of_true ⟨iff_of_false (not_rejects_recover hrecover)
      (not_rejects_recover hrecover), ?_⟩ ?_
    · intro cache' hok
      cases hok
    · rintro ⟨signer, cache', hok, -⟩
      rw [hrecover] at hok
      cases hok
  | ok r =>
    obtain ⟨signer, cache₁⟩ := r
    have hslips : Slips cr snap h cache ↔ signer ∈ snap.signers ∧
        snap.number.toNat + 1 < snap.signers.card / 2 + 1 ∧ snap.signedRecently signer := by
      rw [← hnumber]
      constructor
      · rintro ⟨signer', cache', hok, hslip⟩
        rw [hrecover] at hok
        cases hok
        exact hslip
      · intro hslip
        exact ⟨signer, cache₁, hrecover, hslip⟩
    have hverify := @verifySeal_known cr fakeDiff snap h cache cache₁ signer hpos hrecover
    have hrejects : Rejects (verifySeal cr fakeDiff snap h cache) ↔ _ :=
      hverify.trans (@blocked_iff_slips config snap _ _ signer hw hn)
    rw [← hslips] at hrejects
    obtain ⟨hrej, hbad⟩ | ⟨⟨r, hok⟩, hmem, hfresh⟩ := apply_known hepoch hsucc hnonce hrecover
    · constructor
      · rintro ⟨hiff, -⟩
        exact (hrejects.mp (hiff.mpr hrej)).2
      · intro hslip
        have hverified := hrejects.mpr ⟨hbad, hslip⟩
        refine ⟨iff_of_true hverified hrej, ?_⟩
        intro cache' hok
        rw [hok] at hverified
        exact absurd hverified (not_rejects_ok cache')
    · have hnot : ¬ (signer ∉ snap.signers ∨
          (shifted config (UInt64.ofNat h.number) snap).signedRecently signer) :=
        fun hbad => hbad.elim (fun hnot => hnot hmem) hfresh
      rw [hok, hslips]
      refine iff_of_true ⟨iff_of_false (fun hrej => hnot (hrejects.mp hrej).1)
        (not_rejects_ok r), fun _ _ => ⟨r, rfl⟩⟩ ?_
      rintro ⟨-, hlow, hrecent⟩
      exact hfresh ((shifted_low hw hn hlow).mpr hrecent)

/-! ## A chain of two blocks with one signer -/

/-- Four signers; the key is the third. -/
def fourSigners : List Address :=
  [bigToAddress 1, bigToAddress 2, keyAddress, ⟨replicate 20 0xff, rfl⟩]

def genesisHash : Hash :=
  bigToHash 0x7224d261ee2eb54abb238ad6fbb94fce3961b9117e1991c4f8a3df126a150c6b

def earlySeal1 : Bytes :=
  beBytes 32 0x9377c312145a5afb911bf9e8c067bcf6094c533603687850df502b61290bbf5e ++
    beBytes 32 0x37b3866c9b6e64056c0951c4b8998e6b0aab95ae06e81ad3387467f16b42d0eb ++ [0x00]

/-- Block 1, signed out of turn with the key. -/
def early1 : Header :=
  { header1 with
    parentHash := genesisHash
    difficulty := diffNoTurn
    extra := replicate extraVanity 0 ++ earlySeal1 }

def earlySeal2 : Bytes :=
  beBytes 32 0x0fd109be4a9e07d64737926c7e2d8d7afa63ec5991d126b8abe7919d3c62a7be ++
    beBytes 32 0x13276ea3678e59be0fda7a6f9954acc08a8df90db4db278bf0c8322ebf65fe1f ++ [0x00]

/-- Block 2, signed in turn with the same key. -/
def early2 : Header :=
  { header1 with
    parentHash :=
      bigToHash 0x2c695d3897a46b80620c0a3820458d489d4acbe93ff69b92b00f47d73667ed2c
    difficulty := diffInTurn
    number := 2
    time := 10
    extra := replicate extraVanity 0 ++ earlySeal2 }

/-- Keccak-256, and a recovery that knows the two seals. -/
def earlyCrypto : Crypto where
  keccak := Keccak.keccak256
  ecrecover := fun hash sig =>
    if hash = bigToHash 0xf27e78707fc279bfce74751f620952d532051715c55cd6d52a7f3468d135ff24 ∧
        sig = earlySeal1 then some keyPubkey
    else if hash = bigToHash 0x50928e58303deb129a89e70472b34b03438829c97c3c424ba45d89af9b65e5f9 ∧
        sig = earlySeal2 then some keyPubkey
    else none

def earlyConfig : Config := { period := 5, epoch := epochLength }

def earlySnapshot : Snapshot := .newSnapshot 0 genesisHash fourSigners

theorem recoverSigner_early1 :
    recoverSigner earlyCrypto early1 [] = .ok (keyAddress, [(early1.hash earlyCrypto, keyAddress)])
    := by
  decide +kernel

theorem recoverSigner_early2 :
    recoverSigner earlyCrypto early2 [] = .ok (keyAddress, [(early2.hash earlyCrypto, keyAddress)])
    := by
  decide +kernel

theorem inturn_early (hsigners : snap.signers = fourSigners.toFinset) (number : UInt64) :
    snap.inturn number keyAddress = .ok (decide (number.toNat % 4 = 2)) := by
  have hsort : fourSigners.toFinset.sort addressLE = fourSigners :=
    (toFinset_sort addressLE (by decide +kernel)).mpr (by decide +kernel)
  have hidx : fourSigners.idxOf keyAddress = 2 := by decide +kernel
  rw [Snapshot.inturn, Snapshot.ascending, hsigners, hsort, Clique.Snapshot.inturn, hidx]
  rfl

theorem reachable_early : Reachable earlyCrypto earlyConfig earlySnapshot :=
  .genesis _ _ (by decide)

theorem verifySeal_early1 : verifySeal earlyCrypto false earlySnapshot early1 [] =
      .ok [(early1.hash earlyCrypto, keyAddress)] := by
  rw [verifySeal, if_neg (by decide), recoverSigner_early1]
  dsimp only
  rw [if_neg (by decide +kernel), if_neg (by decide +kernel), verifyDifficulty, inturn_early rfl]
  rfl

theorem verifySeal_agrees_iff_early1 :
    (Rejects (verifySeal earlyCrypto false earlySnapshot early1 []) ↔
        Rejects (apply earlyCrypto earlyConfig [early1] earlySnapshot [])) ∧
      ∀ cache', verifySeal earlyCrypto false earlySnapshot early1 [] = .ok cache' →
        ∃ r, apply earlyCrypto earlyConfig [early1] earlySnapshot [] = .ok r := by
  refine (verifySeal_agrees_iff earlyCrypto earlyConfig (by decide) earlySnapshot reachable_early
    early1 ⟨rfl, by decide, trivial⟩ (.inr rfl) false []).mpr ?_
  rintro ⟨signer, cache', -, -, -, hrecent⟩
  obtain ⟨k, hk⟩ := signedRecently_iff.mp hrecent
  have hnone : (∅ : Map UInt64 Address).lookup k = some signer := hk
  rw [Finmap.lookup_empty] at hnone
  cases hnone

/-- The first block is accepted and has its entry. -/
theorem apply_early1 : ∃ snap, apply earlyCrypto earlyConfig [early1] earlySnapshot [] =
      .ok (snap, [(early1.hash earlyCrypto, keyAddress)]) ∧ snap.number = 1 ∧
      snap.signers = fourSigners.toFinset ∧ snap.recents.lookup 1 = some keyAddress := by
  have hrun : ∃ r, apply earlyCrypto earlyConfig [early1] earlySnapshot [] = .ok r ∧
      r.1.number = 1 ∧ r.1.signers = fourSigners.toFinset ∧
      r.1.recents.lookup 1 = some keyAddress ∧
      r.2 = [(early1.hash earlyCrypto, keyAddress)] := of_checked (by decide +kernel)
  obtain ⟨⟨snap, cache⟩, happly, hnumber, hsigners, hlookup, rfl⟩ := hrun
  exact ⟨snap, happly, hnumber, hsigners, hlookup⟩

/-- Both blocks pass `verifySeal`, each on the snapshot of its parent; but the second block is
within three of the first, and no snapshot can be made of it. -/
theorem verifySeal_slips : ∃ snap, Reachable earlyCrypto earlyConfig snap ∧
      verifySeal earlyCrypto false earlySnapshot early1 [] =
        .ok [(early1.hash earlyCrypto, keyAddress)] ∧
      apply earlyCrypto earlyConfig [early1] earlySnapshot [] =
        .ok (snap, [(early1.hash earlyCrypto, keyAddress)]) ∧
      verifySeal earlyCrypto false snap early2 [] = .ok [(early2.hash earlyCrypto, keyAddress)] ∧
      apply earlyCrypto earlyConfig [early2] snap [] = .error .errRecentlySigned := by
  obtain ⟨snap, happly, hnumber, hsigners, hlookup⟩ := apply_early1
  have hreach : Reachable earlyCrypto earlyConfig snap :=
    Reachable.apply reachable_early (show Numbered 0 [early1] from ⟨rfl, by decide, trivial⟩)
      happly
  have hw : Window 1 snap := by
    have hw := hreach.window
    rw [hnumber] at hw
    exact hw
  have hmem : keyAddress ∈ snap.signers := by
    rw [hsigners]
    decide +kernel
  have hlow : 1 + 1 < snap.signers.card / 2 + 1 := by
    rw [hsigners]
    decide +kernel
  refine ⟨snap, hreach, verifySeal_early1, happly, ?_, ?_⟩
  · rw [verifySeal, if_neg (by decide), recoverSigner_early2]
    dsimp only
    rw [if_neg (not_not.mpr hmem), if_neg (not_blockedRecently_low hw rfl hlow),
      verifyDifficulty, inturn_early hsigners]
    rfl
  · obtain ⟨next, hone⟩ := @apply_single earlyCrypto earlyConfig snap early2 []
      (by rw [hnumber]; rfl)
    obtain ⟨next', hheader⟩ := @applyHeader_known earlyCrypto earlyConfig snap early2 _ _ _
      (by decide) (.inr rfl) recoverSigner_early2
    have hrecent : (shifted earlyConfig (UInt64.ofNat early2.number) snap).signedRecently
        keyAddress := (shifted_low hw rfl hlow).mpr (signedRecently_iff.mpr ⟨1, hlookup⟩)
    rw [hone, hheader, authorized, shifted_signers, if_neg (not_not.mpr hmem), if_pos hrecent]
    rfl

end GoEthereum.Clique.Voting

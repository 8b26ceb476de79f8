import GoEthereum.Clique.Voting

/-!
# Votes over a chain

What holds of every snapshot that `apply` makes from the signers of a genesis block. A signer
has to wait for half of the others.
-/

namespace GoEthereum.Clique.Voting

open List

variable {cr : Crypto} {config : Config} {h : Header} {headers : List Header} {n : UInt64}
  {cache cache' : SigLRU} {snap snap' : Snapshot} {signer address : Address}

/-! ## Runs -/

/-- The header in the middle of a run. -/
theorem applyHeaders_split {before after : List Header} (happly : applyHeaders cr config
      (before ++ h :: after) snap cache = .ok (snap', cache')) :
    ∃ mid c next c', applyHeaders cr config before snap cache = .ok (mid, c) ∧
      applyHeader cr config h mid c = .ok (next, c') ∧
      applyHeaders cr config after next c' = .ok (snap', cache') := by
  induction before generalizing snap cache with
  | nil =>
    rw [nil_append, applyHeaders] at happly
    split at happly
    · cases happly
    next next c' hone => exact ⟨snap, cache, next, c', rfl, hone, happly⟩
  | cons x before ih =>
    rw [cons_append, applyHeaders] at happly
    split at happly
    · cases happly
    next snap₁ c₁ hx =>
    rw [applyHeaders, hx]
    exact ih happly

/-- What every header of a run keeps holds at its end. -/
theorem applyHeaders_invariant {motive : List Header → Snapshot → SigLRU → Prop}
    (start : motive [] snap cache)
    (step : ∀ before h after mid c next c', headers = before ++ h :: after → motive before mid c →
      applyHeader cr config h mid c = .ok (next, c') → motive (before ++ [h]) next c')
    (happly : applyHeaders cr config headers snap cache = .ok (snap', cache')) :
    motive headers snap' cache' := by
  induction headers using reverseRecOn generalizing snap' cache' with
  | nil =>
    cases happly
    exact start
  | append_singleton before h ih =>
    obtain ⟨mid, c, next, c', hbefore, hone, hafter⟩ := applyHeaders_split happly
    cases hafter
    refine step before h [] mid c _ _ rfl (ih ?_ hbefore) hone
    intro before' h' after mid c next c' hsplit
    exact step before' h' (after ++ [h]) mid c next c' (by rw [hsplit, append_assoc, cons_append])

theorem Counts.left {m : Nat} {before after : List Header} (hcounts : Counts m (before ++ after)) :
    Counts m before := by
  induction before generalizing m with
  | nil => trivial
  | cons x before ih => exact ⟨hcounts.1, ih hcounts.2⟩

theorem Counts.middle {m : Nat} {before after : List Header}
    (hcounts : Counts m (before ++ h :: after)) :
    (UInt64.ofNat h.number).toNat = m + before.length + 1 := by
  induction before generalizing m with
  | nil => exact hcounts.1
  | cons x before ih =>
    rw [ih hcounts.2, length_cons]
    omega

/-! ## Waiting -/

theorem voted_signers (config : Config) (h : Header) (signer : Address) (authorize : Bool)
    (snap : Snapshot) : (voted config h signer authorize snap).signers = snap.signers :=
  (voted_alike config h signer authorize snap).signers.trans (shifted_signers _ _ snap)

/-- The signers of headers, the last one first, and the cache of signatures. -/
def sealers (cr : Crypto) (headers : List Header) (cache : SigLRU) : List Address × SigLRU :=
  headers.foldl (fun past h =>
    match recoverSigner cr h past.2 with
    | .ok (signer, cache) => (signer :: past.1, cache)
    | .error _ => past) ([], cache)

theorem sealers_concat {past : List Address} {c c' : SigLRU} {before : List Header}
    (hpast : sealers cr before cache = (past, c))
    (hrecover : recoverSigner cr h c = .ok (signer, c')) :
    sealers cr (before ++ [h]) cache = (signer :: past, c') := by
  rw [sealers, foldl_concat, ← sealers, hpast]
  dsimp only
  rw [hrecover]

/-- The last `len` signers have their entries. -/
def Spaced (len : Nat) (past : List Address) (recents : Map UInt64 Address) : Prop :=
  ∀ j signer, j < len → past[j]? = some signer →
    ∃ k : UInt64, k.toNat + j = past.length ∧ recents.lookup k = some signer

/-- A header is signed by none of the last signers, and becomes the last one itself. -/
theorem applyHeader_spaced {past : List Address} (hw : Window past.length snap)
    (hs : Spaced (snap.signers.card / 2) past snap.recents)
    (hn : (UInt64.ofNat h.number).toNat = past.length + 1)
    (happly : applyHeader cr config h snap cache = .ok (snap', cache')) :
    ∃ signer, recoverSigner cr h cache = .ok (signer, cache') ∧
      signer ∉ past.take (snap.signers.card / 2) ∧
      Spaced (snap'.signers.card / 2) (signer :: past) snap'.recents := by
  obtain ⟨signer, authorize, hrecover, -, -, hfresh, rfl⟩ := applyHeader_ok happly
  have halike := voted_alike config h signer authorize snap
  have hsame := voted_signers config h signer authorize snap
  generalize voted config h signer authorize snap = snap₁ at halike hsame ⊢
  generalize UInt64.ofNat h.number = n at hn halike hfresh ⊢
  have hlt := n.toNat_lt
  have hcount := hw.count
  have hlimit := limit_toNat hw.count (show past.length < 2 ^ 64 by omega)
  have hkept : Spaced (snap.signers.card / 2) past (shifted config n snap).recents := by
    intro j s hj hs'
    obtain ⟨k, hk, hlookup⟩ := hs j s hj hs'
    refine ⟨k, hk, ?_⟩
    rw [shifted_lookup hlimit, if_neg (by omega)]
    exact hlookup
  refine ⟨signer, hrecover, fun hmem => ?_, ?_⟩
  · obtain ⟨j, hj, hget⟩ := mem_take_iff_getElem.mp hmem
    obtain ⟨k, -, hlookup⟩ := hkept j signer (by omega)
      (List.getElem?_eq_some_iff.mpr ⟨by omega, hget⟩)
    exact hfresh (signedRecently_iff.mpr ⟨k, hlookup⟩)
  · have hcount₁ : snap₁.signers.card ≤ 2 ^ 63 + n.toNat := by
      rw [hsame]
      omega
    obtain ⟨len, hlen, -, hgrow, -, hrecents⟩ := settle_recents hcount₁ h.coinbase
    intro j s hj hs'
    rw [hlen] at hj
    rw [hsame] at hgrow
    have hentry : ∃ k : UInt64, k.toNat + j = n.toNat ∧ snap₁.recents.lookup k = some s := by
      rw [halike.recents]
      cases j with
      | zero =>
        refine ⟨n, rfl, ?_⟩
        rw [Map.lookup_insert_ite, if_pos rfl]
        exact hs'
      | succ j =>
        obtain ⟨k, hk, hlookup⟩ := hkept j s (by omega) hs'
        refine ⟨k, by omega, ?_⟩
        rw [Map.lookup_insert_ite, if_neg]
        · exact hlookup
        · rintro rfl
          omega
    obtain ⟨k, hk, hlookup⟩ := hentry
    refine ⟨k, by rw [length_cons]; omega, ?_⟩
    rcases hrecents k with ⟨heq, -⟩ | ⟨-, hout⟩
    · rw [heq, hlookup]
    · omega

theorem applyHeaders_spaced {before : List Header} (hw : Window 0 snap) (hcounts : Counts 0 before)
    (happly : applyHeaders cr config before snap cache = .ok (snap', cache')) :
    Window before.length snap' ∧ ∃ past, sealers cr before cache = (past, cache') ∧
      past.length = before.length ∧ Spaced (snap'.signers.card / 2) past snap'.recents := by
  refine applyHeaders_invariant (motive := fun before mid c => Window before.length mid ∧
    ∃ past, sealers cr before cache = (past, c) ∧ past.length = before.length ∧
      Spaced (mid.signers.card / 2) past mid.recents) ⟨hw, [], rfl, rfl, ?_⟩ ?_ happly
  · intro j signer _ hj
    cases hj
  · rintro before h after mid c next c' rfl ⟨hw, past, hpast, hlen, hs⟩ hone
    have hn : (UInt64.ofNat h.number).toNat = before.length + 1 := by
      rw [hcounts.middle, Nat.zero_add]
    rw [length_append, length_singleton]
    refine ⟨(applyHeader_window hw hn hone).1, ?_⟩
    rw [← hlen] at hw hn
    obtain ⟨signer, hrecover, -, hs'⟩ := applyHeader_spaced hw hs hn hone
    exact ⟨signer :: past, sealers_concat hpast hrecover, by rw [length_cons, hlen], hs'⟩

end GoEthereum.Clique.Voting

import GoEthereum.Clique.Rewards

/-!
# The signature cache and the signer of a header

`ecrecover` answers from a cache keyed by the header's hash. The cache holds
signers of headers the engine has seen; as long as no two of those headers have
one hash, the answer is the signer of the header at hand, whatever was asked
before. `author_spec` says so and is what the results about runs use.
-/

namespace GoEthereum.Clique

variable {cr : Crypto} {h : Header} {H : Set Header} {cache : SigLRU}

/-- Every entry of the cache is the signer of a header of `H`. -/
def CacheOf (cr : Crypto) (H : Set Header) (cache : SigLRU) : Prop :=
  ∀ e ∈ cache, ∃ h ∈ H, h.hash cr = e.1 ∧ recoverSigner cr h = .ok (e.2, none)

theorem cacheOf_nil (cr : Crypto) (H : Set Header) : CacheOf cr H [] := by
  intro e he
  cases he

theorem CacheOf.mono {H' : Set Header} (hc : CacheOf cr H cache) (hH : H ⊆ H') :
    CacheOf cr H' cache := by
  intro e he
  obtain ⟨h, hh, heq⟩ := hc e he
  exact ⟨h, hH hh, heq⟩

theorem CacheOf.get {cache' : SigLRU} {key : Hash} {a : Address} (hc : CacheOf cr H cache)
    (h : cache.get key = some (a, cache')) : CacheOf cr H cache' ∧ (key, a) ∈ cache := by
  unfold SigLRU.get at h
  split at h
  · cases h
  next e hf =>
  simp only [hf, Option.some.injEq, Prod.mk.injEq] at h
  obtain ⟨rfl, rfl⟩ := h
  have hmem := List.mem_of_find?_eq_some hf
  have hkey : e.1 = key := by
    have := List.find?_some hf
    exact of_decide_eq_true this
  constructor
  · intro x hx
    rcases List.mem_cons.mp hx with rfl | hx
    · exact hc x hmem
    · exact hc x (List.mem_of_mem_erase hx)
  · rw [← hkey]
    exact hmem

theorem CacheOf.add {a : Address} (hc : CacheOf cr H cache) (hh : h ∈ H)
    (hr : recoverSigner cr h = .ok (a, none)) : CacheOf cr H (cache.add (h.hash cr) a) := by
  have hhead : ∀ rest : SigLRU, (∀ e ∈ rest, e ∈ cache) →
      CacheOf cr H ((h.hash cr, a) :: rest) := by
    intro rest hrest e he
    rcases List.mem_cons.mp he with rfl | he
    · exact ⟨h, hh, rfl, hr⟩
    · exact hc e (hrest e he)
  unfold SigLRU.add
  split
  · exact hhead _ fun e he => List.mem_of_mem_erase he
  · split
    · exact hhead _ fun e he => List.dropLast_subset cache he
    · exact hhead _ fun e he => he

/-- What `Author` returns for a header of `H`: the recovered signer, whatever the
cache holds. Only the cache of the engine changes. -/
theorem author_spec {c : Engine} (hinj : Set.InjOn (Header.hash cr) H) (hh : h ∈ H)
    (hc : CacheOf cr H c.signatures) :
    match recoverSigner cr h with
    | .error p => author cr c h = .error p
    | .ok (a, e) => ∃ cache, CacheOf cr H cache ∧
        author cr c h = .ok (a, e, { c with signatures := cache }) := by
  cases hg : c.signatures.get (h.hash cr) with
  | some r =>
    obtain ⟨a, cache⟩ := r
    obtain ⟨hcache, hmem⟩ := hc.get hg
    obtain ⟨h', hh', hhash, hrec⟩ := hc _ hmem
    have heq : h' = h := hinj hh' hh hhash
    subst heq
    rw [hrec]
    refine ⟨cache, hcache, ?_⟩
    simp [author, ecrecover, hg, Except.map]
  | none =>
    cases hr : recoverSigner cr h with
    | error p => simp [author, ecrecover, hg, hr, Except.map]
    | ok r =>
      obtain ⟨a, e⟩ := r
      cases e with
      | none =>
        refine ⟨_, hc.add hh hr, ?_⟩
        simp [author, ecrecover, hg, hr, Except.map]
      | some e =>
        refine ⟨c.signatures, hc, ?_⟩
        simp [author, ecrecover, hg, hr, Except.map]

/-- The headers the recovery does not panic on: too short for a seal, or without
a field of a later fork. -/
def NoLaterFork (h : Header) : Prop :=
  h.extra.length < extraSeal ∨
    (h.withdrawalsHash = none ∧ h.excessBlobGas = none ∧ h.blobGasUsed = none ∧
      h.parentBeaconRoot = none)

instance (h : Header) : Decidable (NoLaterFork h) :=
  inferInstanceAs (Decidable (_ ∨ (_ ∧ _ ∧ _ ∧ _)))

theorem encodeSigHeader_ok_iff (hlen : ¬ h.extra.length < extraSeal) :
    (∃ b, encodeSigHeader h = .ok b) ↔ h.withdrawalsHash = none ∧
      h.excessBlobGas = none ∧ h.blobGasUsed = none ∧ h.parentBeaconRoot = none := by
  unfold encodeSigHeader
  rw [if_neg hlen]
  cases h.withdrawalsHash <;> cases h.excessBlobGas <;> cases h.blobGasUsed <;>
    cases h.parentBeaconRoot <;> simp

theorem recoverSigner_ok_iff (cr : Crypto) (h : Header) :
    (∃ r, recoverSigner cr h = .ok r) ↔ NoLaterFork h := by
  unfold recoverSigner NoLaterFork
  by_cases hlen : h.extra.length < extraSeal
  · simp [hlen]
  rw [if_neg hlen, ← encodeSigHeader_ok_iff hlen, sealHash]
  cases he : encodeSigHeader h with
  | error p => simp [Except.map, hlen]
  | ok b =>
    simp only [Except.map, Except.ok.injEq, exists_eq', or_true, iff_true]
    cases cr.ecrecover (cr.keccak b) h.signature with
    | none => exact ⟨_, rfl⟩
    | some pubkey => exact ⟨_, rfl⟩

end GoEthereum.Clique

import GoEthereum.Clique.Signer

/-!
# Runs of reward calls

A sequence of `ProcessRewardEvents` and `Finalize` calls on an engine as `New`
makes it. `New` does not allocate the reward map, so the engine panics at the
first event it understands; it also panics at an event with a single topic. A
run returns normally exactly when it meets neither (and no header of a later
fork), and then no log has changed anything.
-/

namespace GoEthereum.Clique

open List

variable {cr : Crypto} {c : Engine} {H : Set Header}

inductive Call where
  | processRewardEvents (receipts : List Receipt)
  | finalize (header : Header) (state : StateDB)

/-- One call; the state a `Finalize` call changes is the caller's. -/
def Engine.call (cr : Crypto) (c : Engine) : Call → Except Panic Engine
  | .processRewardEvents receipts => processRewardEvents cr c receipts
  | .finalize h s => (finalize cr c h s).map Prod.snd

def runCalls (cr : Crypto) : Engine → List Call → Except Panic Engine
  | c, [] => .ok c
  | c, call :: calls =>
    match c.call cr call with
    | .error p => .error p
    | .ok c => runCalls cr c calls

/-- The call without the logs that are no well-formed events. -/
def Call.eventsOnly (cr : Crypto) : Call → Call
  | .processRewardEvents receipts =>
    .processRewardEvents (receipts.map fun r =>
      { logs := r.logs.filter fun log => (rewardEvent cr log).isSome })
  | .finalize h s => .finalize h s

/-! ## What an unallocated reward map survives -/

/-- A log the engine passes over: not the event, or the event with data that
does not decode. -/
def HarmlessLog (cr : Crypto) (log : Log) : Prop :=
  match log.topics with
  | [] => True
  | topic0 :: rest =>
    topic0 = rewardSetUpdatedSig cr → rest ≠ [] ∧ unpackRewardSet log.data = none

def Call.Harmless (cr : Crypto) : Call → Prop
  | .processRewardEvents receipts => ∀ r ∈ receipts, ∀ log ∈ r.logs, HarmlessLog cr log
  | .finalize h _ => NoLaterFork h

theorem processLog_ok_iff (hm : c.rewardSnapshots = none) (log : Log) :
    (∃ c', processLog cr c log = .ok c') ↔ HarmlessLog cr log := by
  unfold processLog HarmlessLog
  match log.topics with
  | [] => simp
  | [topic0] =>
    by_cases h0 : topic0 = rewardSetUpdatedSig cr
    · simp [h0]
    · simp [h0]
  | topic0 :: topic1 :: rest =>
    by_cases h0 : topic0 = rewardSetUpdatedSig cr
    · cases hu : unpackRewardSet log.data with
      | none => simp [h0]
      | some rw => simp [h0, Engine.setRewardSnapshot, hm]
    · simp [h0]

theorem processLog_of_harmless {log : Log} (c : Engine) (h : HarmlessLog cr log) :
    processLog cr c log = .ok c := by
  unfold HarmlessLog at h
  unfold processLog
  match ht : log.topics with
  | [] => rfl
  | topic0 :: rest =>
    by_cases h0 : topic0 = rewardSetUpdatedSig cr
    · rw [ht] at h
      obtain ⟨hne, hu⟩ := h h0
      cases rest with
      | nil => exact absurd rfl hne
      | cons topic1 rest => simp [h0, hu]
    · simp [h0]

theorem processLogs_ok_iff (cr : Crypto) (hm : c.rewardSnapshots = none) (logs : List Log) :
    (∃ c', processLogs cr c logs = .ok c') ↔ ∀ log ∈ logs, HarmlessLog cr log := by
  induction logs with
  | nil => simp [processLogs]
  | cons log logs ih =>
    rw [forall_mem_cons]
    constructor
    · rintro ⟨c', h⟩
      unfold processLogs at h
      split at h
      · cases h
      next c₁ hl =>
      -- a log that gets through has left the engine as it was
      have hharm := (processLog_ok_iff hm log).mp ⟨c₁, hl⟩
      obtain rfl := Except.ok.inj ((processLog_of_harmless c hharm).symm.trans hl)
      exact ⟨hharm, ih.mp ⟨c', h⟩⟩
    · rintro ⟨hl, hls⟩
      obtain ⟨c', h⟩ := ih.mpr hls
      refine ⟨c', ?_⟩
      unfold processLogs
      rw [processLog_of_harmless c hl]
      exact h

theorem processLogs_of_harmless (c : Engine) {logs : List Log}
    (h : ∀ log ∈ logs, HarmlessLog cr log) : processLogs cr c logs = .ok c := by
  induction logs with
  | nil => rfl
  | cons log logs ih =>
    rw [forall_mem_cons] at h
    unfold processLogs
    rw [processLog_of_harmless c h.1]
    exact ih h.2

/-- Without a reward map the whole ether goes to the signer. -/
theorem rewardCredits_of_none (hm : c.rewardSnapshots = none) (signer : Address) :
    rewardCredits c signer = .ok [(signer, total)] := by
  unfold rewardCredits
  rw [hm]
  rfl

/-! ## Runs -/

/-- The engines a run from `New` goes through: no reward map, and a cache of
signers of headers of `H`. -/
structure Fresh (cr : Crypto) (H : Set Header) (c : Engine) : Prop where
  rewardSnapshots : c.rewardSnapshots = none
  cache : CacheOf cr H c.signatures

theorem fresh_new (cr : Crypto) (H : Set Header) (config : Config) : Fresh cr H (new config) :=
  ⟨rfl, cacheOf_nil cr H⟩

/-- `Finalize` on such an engine: it returns exactly for headers the recovery
accepts, pays the signer, and changes only the cache. -/
theorem Fresh.finalize {h : Header} (hc : Fresh cr H c) (hinj : Set.InjOn (Header.hash cr) H)
    (hh : h ∈ H) (s : StateDB) :
    match recoverSigner cr h with
    | .error p => finalize cr c h s = .error p
    | .ok (signer, _) => ∃ c', Fresh cr H c' ∧
        finalize cr c h s = .ok (s.addBalance signer total, c') := by
  have hspec := author_spec hinj hh hc.cache
  generalize recoverSigner cr h = r at hspec ⊢
  cases r with
  | error p => simp [Clique.finalize, hspec]
  | ok r =>
    obtain ⟨cache, hcache, ha⟩ := hspec
    refine ⟨{ c with signatures := cache }, ⟨hc.rewardSnapshots, hcache⟩, ?_⟩
    have hm : ({ c with signatures := cache } : Engine).rewardSnapshots = none :=
      hc.rewardSnapshots
    rw [finalize_of_author s ha, rewardCredits_of_none hm]
    rfl

/-- The header a call is about belongs to `H`. -/
def Call.headerIn (H : Set Header) : Call → Prop
  | .processRewardEvents _ => True
  | .finalize h _ => h ∈ H

/-- One call returns exactly when it is harmless. The engine stays fresh, and
dropping the logs that are no events makes no difference. -/
theorem Fresh.call (hc : Fresh cr H c) (hinj : Set.InjOn (Header.hash cr) H) (call : Call)
    (hh : call.headerIn H) :
    ((∃ c', c.call cr call = .ok c') ↔ call.Harmless cr) ∧ ∀ c', c.call cr call = .ok c' →
        Fresh cr H c' ∧ c.call cr (call.eventsOnly cr) = .ok c' := by
  cases call with
  | processRewardEvents receipts =>
    have hiff := processLogs_ok_iff cr hc.rewardSnapshots (receipts.flatMap Receipt.logs)
    have hall : (∀ log ∈ receipts.flatMap Receipt.logs, HarmlessLog cr log) ↔
        ∀ r ∈ receipts, ∀ log ∈ r.logs, HarmlessLog cr log := by
      simp only [mem_flatMap, forall_exists_index, and_imp]
      exact ⟨fun h r hr log hl => h log r hr hl, fun h log r hr hl => h r hr log hl⟩
    refine ⟨hiff.trans hall, ?_⟩
    intro c' hok
    have hharm := hiff.mp ⟨c', hok⟩
    have hsame : c' = c := by
      have := processLogs_of_harmless c hharm
      rw [show c.call cr (.processRewardEvents receipts) = _ from this] at hok
      exact (Except.ok.inj hok).symm
    subst hsame
    refine ⟨hc, ?_⟩
    apply processLogs_of_harmless
    intro log hlog
    obtain ⟨r', hr', hmem⟩ := mem_flatMap.mp hlog
    obtain ⟨r, hr, rfl⟩ := mem_map.mp hr'
    exact hall.mp hharm r hr log (mem_of_mem_filter hmem)
  | finalize h s =>
    have hspec := hc.finalize hinj hh s
    have hiff := recoverSigner_ok_iff cr h
    cases hr : recoverSigner cr h with
    | error p =>
      rw [hr] at hspec
      have hno : ¬ NoLaterFork h := by
        rw [← hiff, hr]
        rintro ⟨r, hr'⟩
        cases hr'
      simp [Engine.call, Call.Harmless, hspec, hno, Except.map]
    | ok r =>
      rw [hr] at hspec
      obtain ⟨c₁, hc₁, hf⟩ := hspec
      have hyes : NoLaterFork h := hiff.mp ⟨r, hr⟩
      refine ⟨by simp [Engine.call, Call.Harmless, hf, hyes, Except.map], ?_⟩
      intro c' hok
      have heq : c₁ = c' := by
        simpa [Engine.call, hf, Except.map] using hok
      subst heq
      exact ⟨hc₁, hok⟩

theorem runCalls_fresh (hinj : Set.InjOn (Header.hash cr) H) (calls : List Call) (hc : Fresh cr H c)
    (hh : ∀ call ∈ calls, call.headerIn H) :
    (∃ c', runCalls cr c calls = .ok c' ∧ runCalls cr c (calls.map (Call.eventsOnly cr)) = .ok c') ↔
      ∀ call ∈ calls, call.Harmless cr := by
  induction calls generalizing c with
  | nil => simp [runCalls]
  | cons call calls ih =>
    rw [forall_mem_cons] at hh
    obtain ⟨hiff, hstep⟩ := hc.call hinj call hh.1
    rw [forall_mem_cons, ← hiff]
    cases hcall : c.call cr call with
    | error p =>
      simp [runCalls, hcall]
    | ok c₁ =>
      obtain ⟨hc₁, hstrip⟩ := hstep c₁ hcall
      simp only [runCalls, map_cons, hcall, hstrip, ih hc₁ hh.2,
        Except.ok.injEq, exists_eq', true_and]

/-- The headers a run finalises. -/
def finalized (calls : List Call) : Set Header := {h | ∃ s, Call.finalize h s ∈ calls}

/-- A run of calls on a new engine returns normally, and the logs that are no
well-formed events change nothing, exactly when every call is harmless. -/
theorem runCalls_new_iff (cr : Crypto) (config : Config) (calls : List Call)
    (hinj : Set.InjOn (Header.hash cr) (finalized calls)) :
    (∃ c', runCalls cr (new config) calls = .ok c' ∧
        runCalls cr (new config) (calls.map (Call.eventsOnly cr)) = .ok c') ↔
      ∀ call ∈ calls, call.Harmless cr := by
  apply runCalls_fresh hinj calls (fresh_new cr _ config)
  intro call hcall
  cases call with
  | processRewardEvents receipts => trivial
  | finalize h s => exact ⟨s, hcall⟩

/-- A receipt with an unrelated log, then a block. -/
theorem runCalls_new_iff_sealed1 : ∃ c', runCalls fieldCrypto (new { period := 5, epoch := 0 })
      [.processRewardEvents [⟨[⟨[zeroHash], []⟩]⟩], .finalize sealed1 emptyState] = .ok c' := by
  have hinj : Set.InjOn (Header.hash fieldCrypto) (finalized
      [.processRewardEvents [⟨[⟨[zeroHash], []⟩]⟩], .finalize sealed1 emptyState]) := by
    rintro h ⟨s, hs⟩ h' ⟨s', hs'⟩ _
    simp only [mem_cons, reduceCtorEq, Call.finalize.injEq, not_mem_nil, or_false,
      false_or] at hs hs'
    rw [hs.1, hs'.1]
  have hne : zeroHash ≠ rewardSetUpdatedSig fieldCrypto := by decide +kernel
  obtain ⟨c', hrun, -⟩ := (runCalls_new_iff fieldCrypto { period := 5, epoch := 0 } _ hinj).mpr (by
      intro call hcall
      rcases mem_cons.mp hcall with rfl | hcall
      · simp [Call.Harmless, HarmlessLog, hne]
      · rcases mem_singleton.mp hcall with rfl
        show NoLaterFork sealed1
        decide)
  exact ⟨c', hrun⟩

/-- Any contract can emit this log. -/
theorem event_crashes_new_engine : runCalls fieldCrypto (new { period := 5, epoch := 0 })
      [.processRewardEvents [⟨[rewardLog 1 3]⟩]] = .error .assignToNilMap := by
  have hu : unpackRewardSet (rewardLog 1 3).data = some (twoReceivers, [1, 3]) := by
    decide +kernel
  simp [runCalls, Engine.call, processRewardEvents, processLogs, processLog, hu,
    Engine.setRewardSnapshot, new, show (rewardLog 1 3).topics =
      [rewardSetUpdatedSig fieldCrypto, bytesToHash keyAddress.1] from rfl]

end GoEthereum.Clique

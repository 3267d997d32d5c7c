import Soroscan.Lemmas.StreamItems
import Soroscan.Lemmas.Collected

/-!
# What a trace drops without saying so

A trace that is not marked as truncated is read as a whole one. Only the walk over the diagnostic events sets the mark; the list
of raised events, the storage rows, the lifetimes and the authorized invocations are cut in silence, and what the meta has
outside of its operations is not looked at. A trace without the mark is whole exactly when none of this leaves anything out.
-/

namespace Soroscan

/-- The trace has all that the meta and the envelope have to show. -/
structure NothingDropped (txMeta : TransactionMeta) (envelope : TransactionEnvelope) (trace : TxTrace) : Prop where
  /-- From the diagnostic events: every call and every raised event of the stream, once. -/
  items : trace.source = .diagnostics → streamKinds (streamOf txMeta) ≠ [] →
    (itemsShown trace.calls trace.events).Perm (streamItems 0 (streamOf txMeta))
  /-- From a stream without any: every raised event of the consensus meta. -/
  raised : streamKinds (streamOf txMeta) = [] → trace.events.Perm (consensusRows txMeta)
  /-- From the authorization data: every authorized invocation, but for a root that is the host call itself. -/
  invocations : trace.source = .auth → (nodesOfCalls trace.calls).Perm (envelopeNodes envelope)
  /-- Every change of contract data. -/
  rows : trace.stateChanges.Perm ((allChanges txMeta).filterMap storageRowOf)
  /-- Every lifetime that was not removed. -/
  lifetimes : (allChanges txMeta).filterMap ttlHashOf ⊆ trace.ttlExtensions.map TraceTtl.keyHash

/-- Whether an operation calls a contract. -/
def OperationBody.callsContract : OperationBody → Bool
  | .invokeHostFunction (.invokeContract _) _ => true
  | _ => false

/-- Nothing that a trace collects in silence is cut. -/
structure WithinCaps (txMeta : TransactionMeta) (envelope : TransactionEnvelope) : Prop where
  raised : streamKinds (streamOf txMeta) = [] → ∀ e ∈ unlistedEvents txMeta, e.isV0 = false
  invocations : ItemKind.call ∉ streamKinds (streamOf txMeta) →
    (∃ operation ∈ (innerOperations envelope).getD [], operation.callsContract = true) →
    ∀ operation ∈ (innerOperations envelope).getD [], operation.Shown
  rows : ((changesOf txMeta).filterMap storageRowOf).length ≤ maxItems ∧ (transactionChanges txMeta).filterMap storageRowOf = []
  lifetimes : ((changesOf txMeta).filterMap ttlHashOf).dedup.length ≤ maxItems ∧
    (transactionChanges txMeta).filterMap ttlHashOf ⊆ (changesOf txMeta).filterMap ttlHashOf

/-- There is something to show. -/
def HasTrace (txMeta : TransactionMeta) (envelope : TransactionEnvelope) : Prop :=
  streamKinds (streamOf txMeta) ≠ [] ∨ (∃ e ∈ (rawEventsOf txMeta).take maxItems, e.isV0 = true) ∨
    (changesOf txMeta).filterMap storageRowOf ≠ [] ∨ (changesOf txMeta).filterMap ttlHashOf ≠ [] ∨
    (∃ e ∈ streamOf txMeta, setsMetric e = true) ∨ (feesOf txMeta).isSome = true ∨
    ∃ operation ∈ (innerOperations envelope).getD [], operation.callsContract = true

/-! ## The parts of a trace -/

theorem walkEnvelope_ne_nil_iff (envelope : TransactionEnvelope) :
    walkEnvelope envelope ≠ [] ↔ ∃ operation ∈ (innerOperations envelope).getD [], operation.callsContract = true := by
  have hcall : ∀ operation, (operationCall operation).isSome = operation.callsContract := by
    intro operation
    rcases operation with ⟨⟨call⟩ | _, auth⟩ | _ <;> rfl
  rw [walkEnvelope, Ne, List.filterMap_eq_nil_iff]
  push Not
  simp only [← hcall, Option.isSome_iff_ne_none]

/-- The trace of a meta, whatever its version. -/
theorem metaTrace_eq (digest : Option (Bytes → Option Bytes)) (txMeta : TransactionMeta) :
    metaTrace digest txMeta =
      { source := .diagnostics
        calls := (walkDiagnostics (streamOf txMeta)).calls
        events := if (walkDiagnostics (streamOf txMeta)).calls.isEmpty && (walkDiagnostics (streamOf txMeta)).events.isEmpty then
          flatEventsOf txMeta else (walkDiagnostics (streamOf txMeta)).events
        stateChanges := (walkChanges (changesOf txMeta)).stateChanges
        ttlExtensions := resolveTtlOwners digest (walkChanges (changesOf txMeta)).ttlExtensions
          (walkChanges (changesOf txMeta)).keyCandidates
        metrics := (walkDiagnostics (streamOf txMeta)).metrics
        fees := feesOf txMeta
        truncated := (walkDiagnostics (streamOf txMeta)).truncated } := by
  cases txMeta with
  | v3 txChangesBefore operations txChangesAfter sorobanMeta => rfl
  | v4 txChangesBefore operations txChangesAfter sorobanMeta events diagnosticEvents => rfl
  | other v => cases digest <;> rfl

section

variable {context : TraceContext} {metaXdr envelopeXdr : Text} {txMeta : TransactionMeta} {envelope : TransactionEnvelope}

/-- The trace of a meta and an envelope. -/
def traceOf (context : TraceContext) (txMeta : TransactionMeta) (envelope : TransactionEnvelope) : TxTrace :=
  withAuth (metaTrace context.digest txMeta) (some envelope)

theorem decodeTrace_eq (hmeta : context.metaFromXdr metaXdr = some txMeta)
    (henvelope : context.envelopeFromXdr envelopeXdr = some envelope) :
    decodeTrace context (some metaXdr) (some envelopeXdr) =
      if (traceOf context txMeta envelope).isEmpty then none else some (traceOf context txMeta envelope) := by
  simp only [decodeTrace, Option.bind_some, hmeta, henvelope]
  rfl

/-- The tree of the authorization data changes nothing else. -/
theorem traceOf_meta (context : TraceContext) (txMeta : TransactionMeta) (envelope : TransactionEnvelope) :
    (traceOf context txMeta envelope).events = (metaTrace context.digest txMeta).events ∧
      (traceOf context txMeta envelope).stateChanges = (walkChanges (changesOf txMeta)).stateChanges ∧
      (traceOf context txMeta envelope).ttlExtensions.map TraceTtl.keyHash =
        (walkChanges (changesOf txMeta)).ttlExtensions.map TraceTtl.keyHash ∧
      (traceOf context txMeta envelope).metrics = (walkDiagnostics (streamOf txMeta)).metrics ∧
      (traceOf context txMeta envelope).fees = feesOf txMeta ∧
      (traceOf context txMeta envelope).truncated = (walkDiagnostics (streamOf txMeta)).truncated := by
  rw [traceOf, withAuth, metaTrace_eq]
  split_ifs <;> exact ⟨rfl, rfl, keyHash_resolveTtlOwners _ _ _, rfl, rfl, rfl⟩

/-- The tree of the trace: that of the diagnostic events, or, when they have no call, that of the authorization data. -/
theorem traceOf_calls (context : TraceContext) (txMeta : TransactionMeta) (envelope : TransactionEnvelope) :
    if (walkDiagnostics (streamOf txMeta)).calls = [] ∧ walkEnvelope envelope ≠ [] then
      (traceOf context txMeta envelope).source = .auth ∧ (traceOf context txMeta envelope).calls = walkEnvelope envelope
    else (traceOf context txMeta envelope).source = .diagnostics ∧
      (traceOf context txMeta envelope).calls = (walkDiagnostics (streamOf txMeta)).calls := by
  rw [traceOf, withAuth, metaTrace_eq]
  by_cases h : (walkDiagnostics (streamOf txMeta)).calls = [] ∧ walkEnvelope envelope ≠ []
  · rw [if_pos h, if_pos (by simpa using h)]
    exact ⟨rfl, rfl⟩
  · rw [if_neg h, if_neg (by simpa using h)]
    exact ⟨rfl, rfl⟩

variable (hcaps : ∀ k, (streamKinds (streamOf txMeta)).count k ≤ maxItems)

include hcaps

/-- The events beside the tree. -/
theorem traceOf_events : (traceOf context txMeta envelope).events =
    if streamKinds (streamOf txMeta) = [] then flatEventsOf txMeta else (walkDiagnostics (streamOf txMeta)).events := by
  rw [(traceOf_meta context txMeta envelope).1, metaTrace_eq]
  refine if_congr ?_ rfl rfl
  rw [Bool.and_eq_true, List.isEmpty_iff, List.isEmpty_iff]
  exact walk_empty_iff hcaps

/-- The tree and the events beside it are empty when none of their sources has anything. -/
theorem traceOf_calls_events_eq_nil_iff :
    ((traceOf context txMeta envelope).calls = [] ∧ (traceOf context txMeta envelope).events = []) ↔
      streamKinds (streamOf txMeta) = [] ∧ flatEventsOf txMeta = [] ∧ walkEnvelope envelope = [] := by
  have hcalls := traceOf_calls context txMeta envelope
  have hempty := walk_empty_iff hcaps
  rw [traceOf_events hcaps]
  by_cases hnone : streamKinds (streamOf txMeta) = []
  · obtain ⟨hwalk, -⟩ := hempty.mpr hnone
    rw [if_pos hnone, and_iff_right hnone, and_comm]
    refine and_congr_right fun _ => ?_
    by_cases hauth : walkEnvelope envelope = []
    · rw [if_neg (fun h => h.2 hauth)] at hcalls
      rw [hcalls.2]
      exact iff_of_true hwalk hauth
    · rw [if_pos ⟨hwalk, hauth⟩] at hcalls
      rw [hcalls.2]
  · rw [if_neg hnone]
    refine iff_of_false (fun h => ?_) fun h => hnone h.1
    split_ifs at hcalls with hauth
    · exact hauth.2 (hcalls.2.symm.trans h.1)
    · exact hnone (hempty.mp ⟨hcalls.2.symm.trans h.1, h.2⟩)

/-- A trace is returned if there is something to show. -/
theorem traceOf_isEmpty_iff : (traceOf context txMeta envelope).isEmpty = true ↔ ¬HasTrace txMeta envelope := by
  obtain ⟨-, -, hmetrics⟩ := walkDiagnostics_whole hcaps
  obtain ⟨-, hrows, httls, hmetrics', hfees, -⟩ := traceOf_meta context txMeta envelope
  have hcalls := @traceOf_calls_events_eq_nil_iff context _ envelope hcaps
  have hrowsNil : (traceOf context txMeta envelope).stateChanges = [] ↔ (changesOf txMeta).filterMap storageRowOf = [] := by
    rw [hrows, stateChanges_walkChanges, List.take_eq_nil_iff]
    exact or_iff_right (by decide)
  have httlsNil : (traceOf context txMeta envelope).ttlExtensions = [] ↔ (changesOf txMeta).filterMap ttlHashOf = [] := by
    rw [← (collected_ttlExtensions _).eq_nil_iff (by decide), ← httls, List.map_eq_nil_iff]
  have hauth := not_congr (walkEnvelope_ne_nil_iff envelope)
  rw [not_not] at hauth
  unfold HasTrace
  simp only [TxTrace.isEmpty, Bool.and_eq_true, List.isEmpty_iff, Option.isNone_iff_eq_none, hcalls, hrowsNil, httlsNil,
    hmetrics', hmetrics, hfees, hauth, flatEvents_eq_nil_iff]
  push Not
  simp only [Bool.not_eq_true, Option.isSome_eq_false_iff, Option.isNone_iff_eq_none]
  constructor
  · rintro ⟨⟨⟨⟨⟨hkinds, hevents, hcall⟩, hchanges⟩, hlifetimes⟩, hset⟩, hfee⟩
    exact ⟨hkinds, hevents, hchanges, hlifetimes, hset, hfee, hcall⟩
  · rintro ⟨hkinds, hevents, hchanges, hlifetimes, hset, hfee, hcall⟩
    exact ⟨⟨⟨⟨⟨hkinds, hevents, hcall⟩, hchanges⟩, hlifetimes⟩, hset⟩, hfee⟩

/-- Within the caps of the walk, a trace drops nothing if and only if nothing else is cut. -/
theorem nothingDropped_iff :
    NothingDropped txMeta envelope (traceOf context txMeta envelope) ↔ WithinCaps txMeta envelope := by
  obtain ⟨-, hitems, -⟩ := walkDiagnostics_whole hcaps
  obtain ⟨-, hrows, httls, -, -, -⟩ := traceOf_meta context txMeta envelope
  have hcalls := traceOf_calls context txMeta envelope
  have hevents := @traceOf_events context _ envelope hcaps
  have hraised : (streamKinds (streamOf txMeta) = [] →
      (traceOf context txMeta envelope).events.Perm (consensusRows txMeta)) ↔
      (streamKinds (streamOf txMeta) = [] → ∀ e ∈ unlistedEvents txMeta, e.isV0 = false) := by
    refine imp_congr_right fun hnone => ?_
    rw [hevents, if_pos hnone]
    exact (cut_flatEvents txMeta).perm_iff
  have hinvocations : ((traceOf context txMeta envelope).source = .auth →
      (nodesOfCalls (traceOf context txMeta envelope).calls).Perm (envelopeNodes envelope)) ↔
      (ItemKind.call ∉ streamKinds (streamOf txMeta) →
        (∃ operation ∈ (innerOperations envelope).getD [], operation.callsContract = true) →
        ∀ operation ∈ (innerOperations envelope).getD [], operation.Shown) := by
    rw [← and_imp, ← calls_eq_nil_iff hcaps, ← walkEnvelope_ne_nil_iff]
    split_ifs at hcalls with hauth
    · rw [hcalls.1, hcalls.2, (cut_walkEnvelope envelope).perm_iff]
      exact ⟨fun h _ => h rfl, fun h _ => h hauth⟩
    · rw [hcalls.1]
      exact iff_of_true (fun h => nomatch h) fun h => absurd h hauth
  constructor
  · intro h
    refine ⟨hraised.mp h.raised, hinvocations.mp h.invocations, ?_, ?_⟩
    · exact (cut_allChanges txMeta).perm_iff.mp (hrows ▸ h.rows)
    · exact (lifetimes_subset_iff txMeta).mp (httls ▸ h.lifetimes)
  · intro h
    refine ⟨fun hsource hsome => ?_, hraised.mpr h.raised, hinvocations.mpr h.invocations, ?_, ?_⟩
    · rw [hevents, if_neg hsome]
      split_ifs at hcalls with hauth
      · rw [hcalls.1] at hsource
        cases hsource
      · rw [hcalls.2]
        exact hitems
    · rw [hrows]
      exact (cut_allChanges txMeta).perm_iff.mpr h.rows
    · rw [httls]
      exact (lifetimes_subset_iff txMeta).mpr h.lifetimes

end

/-- A trace that is not marked as truncated drops nothing if and only if one of these holds: the diagnostic events have more calls
or more raised events than the cap, so that the mark is set; there is nothing to show at all; or nothing else is cut. -/
theorem decodeTrace_nothing_dropped_iff {context : TraceContext} {metaXdr envelopeXdr : Text} {txMeta : TransactionMeta}
    {envelope : TransactionEnvelope} (hmeta : context.metaFromXdr metaXdr = some txMeta)
    (henvelope : context.envelopeFromXdr envelopeXdr = some envelope) :
    (∀ trace, decodeTrace context (some metaXdr) (some envelopeXdr) = some trace → trace.truncated = false →
      NothingDropped txMeta envelope trace) ↔
    (∃ k, maxItems < (streamKinds (streamOf txMeta)).count k) ∨ ¬HasTrace txMeta envelope ∨ WithinCaps txMeta envelope := by
  rw [decodeTrace_eq hmeta henvelope]
  by_cases hpast : ∃ k, maxItems < (streamKinds (streamOf txMeta)).count k
  · obtain ⟨k, hk⟩ := hpast
    refine iff_of_true (fun trace htrace htruncated => ?_) (Or.inl ⟨k, hk⟩)
    split_ifs at htrace
    cases htrace
    rw [(traceOf_meta context txMeta envelope).2.2.2.2.2, walkDiagnostics_truncated hk] at htruncated
    cases htruncated
  · have hcaps : ∀ k, (streamKinds (streamOf txMeta)).count k ≤ maxItems := fun k => not_lt.mp fun hk => hpast ⟨k, hk⟩
    rw [or_iff_right hpast]
    by_cases hsome : HasTrace txMeta envelope
    · have hshown : ¬(traceOf context txMeta envelope).isEmpty = true := by
        rw [traceOf_isEmpty_iff hcaps, not_not]
        exact hsome
      rw [or_iff_right (not_not.mpr hsome), if_neg hshown, ← @nothingDropped_iff context _ _ hcaps]
      refine ⟨fun h => h _ rfl ?_, fun h trace htrace _ => ?_⟩
      · rw [(traceOf_meta context txMeta envelope).2.2.2.2.2]
        exact (walkDiagnostics_whole hcaps).1
      · cases htrace
        exact h
    · rw [if_pos ((traceOf_isEmpty_iff hcaps).mpr hsome)]
      exact iff_of_true (fun trace htrace => nomatch htrace) (Or.inl hsome)

/-! ## An envelope of nested invocations -/

/-- A call of the function `f`. -/
def plainCall : InvokeContractArgs := ⟨.contract Bytes32.zero, [102], []⟩

/-- Calls of `f` inside each other, so many below the first. -/
def nestedInvocation : Nat → AuthorizedInvocation
  | 0 => .mk (.contractFn plainCall) []
  | depth + 1 => .mk (.contractFn plainCall) [nestedInvocation depth]

/-- A transaction that calls `f`, with the authorization of calls of `f` inside each other. -/
def nestedEnvelope (depth : Nat) : TransactionEnvelope :=
  .v1 [.invokeHostFunction (.invokeContract plainCall) [nestedInvocation depth]]

/-- The meta of a transaction that changed nothing. -/
def plainMeta : TransactionMeta := .v4 [] [] [] none [] []

/-- The bytes of the call of `f`: the contract, the name and no arguments. -/
def plainCallBytes : Bytes := wordBytes32 1 ++ Bytes32.zero.bytes ++ wordBytes32 1 ++ [102, 0, 0, 0] ++ wordBytes32 0

/-- The bytes of the nested invocations. -/
def nestedBytes : Nat → Bytes
  | 0 => wordBytes32 0 ++ plainCallBytes ++ wordBytes32 0
  | depth + 1 => wordBytes32 0 ++ plainCallBytes ++ wordBytes32 1 ++ nestedBytes depth

/-- The text of the envelope: a transaction of an account, its fee and number, one operation and no signatures. -/
def nestedEnvelopeXdr (depth : Nat) : Text :=
  Base64.encode (wordBytes32 2 ++ wordBytes32 0 ++ Bytes32.zero.bytes ++ wordBytes32 100 ++ wordBytes32 0 ++ wordBytes32 1 ++
    wordBytes32 0 ++ wordBytes32 0 ++ wordBytes32 1 ++ wordBytes32 0 ++ wordBytes32 24 ++ wordBytes32 0 ++ plainCallBytes ++
    wordBytes32 1 ++ wordBytes32 0 ++ nestedBytes depth ++ wordBytes32 0 ++ wordBytes32 0)

/-- The text of the meta: its version, and seven parts that are empty. -/
def plainMetaXdr : Text := Base64.encode (wordBytes32 4 ++ List.replicate 28 0)

/-- Decoders that know one text each. -/
def textContext (metaXdr envelopeXdr : Text) (txMeta : TransactionMeta) (envelope : TransactionEnvelope) : TraceContext where
  metaFromXdr text := if text = metaXdr then some txMeta else none
  envelopeFromXdr text := if text = envelopeXdr then some envelope else none
  digest := none

theorem metaFromXdr_textContext (metaXdr envelopeXdr : Text) (txMeta : TransactionMeta) (envelope : TransactionEnvelope) :
    (textContext metaXdr envelopeXdr txMeta envelope).metaFromXdr metaXdr = some txMeta := if_pos rfl

theorem envelopeFromXdr_textContext (metaXdr envelopeXdr : Text) (txMeta : TransactionMeta) (envelope : TransactionEnvelope) :
    (textContext metaXdr envelopeXdr txMeta envelope).envelopeFromXdr envelopeXdr = some envelope := if_pos rfl

/-- Decoders that know the meta and the nested envelope. -/
def nestedContext (depth : Nat) : TraceContext :=
  textContext plainMetaXdr (nestedEnvelopeXdr depth) plainMeta (nestedEnvelope depth)

theorem height_nestedInvocation (depth : Nat) : (nestedInvocation depth).height = depth := by
  induction depth with
  | zero => rfl
  | succ depth ih => simp [nestedInvocation, AuthorizedInvocation.height, heightOfSubs, ih]

/-- Eight calls below the first one are within the caps. -/
theorem withinCaps_nestedEnvelope : WithinCaps plainMeta (nestedEnvelope 8) := by
  refine ⟨fun _ e he => absurd he List.not_mem_nil, fun _ _ operation hoperation => ?_, ⟨Nat.zero_le _, rfl⟩, Nat.zero_le _,
    List.nil_subset _⟩
  rw [List.mem_singleton.mp hoperation]
  intro entry hentry
  rw [List.mem_singleton.mp hentry, height_nestedInvocation]
  exact ⟨le_rfl, fun _ => rfl⟩

theorem decodeTrace_nestedEnvelope : WithinCaps plainMeta (nestedEnvelope 8) ∧
    ∀ trace, decodeTrace (nestedContext 8) (some plainMetaXdr) (some (nestedEnvelopeXdr 8)) = some trace →
      trace.truncated = false → NothingDropped plainMeta (nestedEnvelope 8) trace :=
  ⟨withinCaps_nestedEnvelope, (@decodeTrace_nothing_dropped_iff (nestedContext 8) plainMetaXdr (nestedEnvelopeXdr 8) plainMeta
    (nestedEnvelope 8) (metaFromXdr_textContext _ _ _ _) (envelopeFromXdr_textContext _ _ _ _)).mpr
    (Or.inr (Or.inr withinCaps_nestedEnvelope))⟩

/-- The ninth call below the first one is dropped, and the trace does not say so. -/
theorem decodeTrace_drops_invocation :
    ∃ trace, decodeTrace (nestedContext 9) (some plainMetaXdr) (some (nestedEnvelopeXdr 9)) = some trace ∧
      trace.truncated = false ∧ ¬NothingDropped plainMeta (nestedEnvelope 9) trace := by
  have hcaps : ∀ k, (streamKinds (streamOf plainMeta)).count k ≤ maxItems := fun k => Nat.zero_le _
  have hcalls : ∃ operation ∈ (innerOperations (nestedEnvelope 9)).getD [], operation.callsContract = true :=
    ⟨_, List.mem_cons_self, rfl⟩
  have hshown : ¬(traceOf (nestedContext 9) plainMeta (nestedEnvelope 9)).isEmpty = true := by
    rw [traceOf_isEmpty_iff hcaps, not_not]
    exact Or.inr (Or.inr (Or.inr (Or.inr (Or.inr (Or.inr hcalls)))))
  have hdecode := @decodeTrace_eq (nestedContext 9) plainMetaXdr (nestedEnvelopeXdr 9) plainMeta (nestedEnvelope 9)
    (metaFromXdr_textContext _ _ _ _) (envelopeFromXdr_textContext _ _ _ _)
  refine ⟨_, hdecode.trans (if_neg hshown), ?_, fun h => ?_⟩
  · rw [(traceOf_meta _ _ _).2.2.2.2.2]
    rfl
  · have hoperation := ((nothingDropped_iff hcaps).mp h).invocations List.not_mem_nil hcalls _ List.mem_cons_self
    have hdepth := (hoperation _ List.mem_cons_self).1
    rw [height_nestedInvocation] at hdepth
    exact absurd hdepth (by decide)

end Soroscan

import Soroscan.Trace
import Soroscan.Lib.Cut
import Mathlib.Data.List.ReduceOption

/-!
# What the other collectors keep

Besides the walk over the diagnostic events, a trace collects the raised events of the consensus meta, the storage rows and the
lifetimes of the ledger entry changes, and the authorized invocations. For each of them: what there is to collect, and when all
of it is kept.
-/

namespace Soroscan

/-! ## Raised events -/

/-- An event whose body is known. -/
def ContractEvent.isV0 (e : ContractEvent) : Bool :=
  match e.body with
  | .v0 _ _ => true
  | .other _ => false

/-- The raised events of the transaction itself, which no operation raised. -/
def transactionEvents : TransactionMeta → List ContractEvent
  | .v4 _ _ _ _ events _ => events
  | _ => []

/-- The raised events that the consensus meta lists. -/
def consensusEvents (txMeta : TransactionMeta) : List ContractEvent := rawEventsOf txMeta ++ transactionEvents txMeta

/-- All the raised events of the consensus meta, numbered by their place. -/
def consensusRows (txMeta : TransactionMeta) : List TraceEvent :=
  ((consensusEvents txMeta).mapIdx fun index event => eventOf event index).reduceOption

theorem eventOf_isSome (e : ContractEvent) (seq : Nat) : (eventOf e seq).isSome = e.isV0 := by
  unfold eventOf ContractEvent.isV0
  cases e.body <;> rfl

theorem reduceOption_mapIdx_eq_nil {es : List ContractEvent} {f : Nat → Nat} :
    (es.mapIdx fun index event => eventOf event (f index)).reduceOption = [] ↔ ∀ e ∈ es, e.isV0 = false := by
  induction es generalizing f with
  | nil => simp
  | cons e es ih =>
    have hsome := eventOf_isSome e (f 0)
    rw [List.mapIdx_cons, List.forall_mem_cons, ← ih (f := fun index => f (index + 1)), ← hsome]
    cases eventOf e (f 0) with
    | none => simp
    | some row => simp

/-- The raised events that the list passes over: those past its cap, and those of the transaction itself. -/
def unlistedEvents (txMeta : TransactionMeta) : List ContractEvent :=
  (rawEventsOf txMeta).drop maxItems ++ transactionEvents txMeta

theorem take_append_unlistedEvents (txMeta : TransactionMeta) :
    (rawEventsOf txMeta).take maxItems ++ unlistedEvents txMeta = consensusEvents txMeta := by
  rw [unlistedEvents, ← List.append_assoc, List.take_append_drop, consensusEvents]

/-- The raised events past the cap and those of the transaction itself are left out. -/
theorem cut_flatEvents (txMeta : TransactionMeta) :
    Cut (∀ e ∈ unlistedEvents txMeta, e.isV0 = false) (flatEventsOf txMeta) (consensusRows txMeta) := by
  have hsplit : consensusRows txMeta = flatEventsOf txMeta ++
      ((unlistedEvents txMeta).mapIdx fun index event =>
        eventOf event (index + ((rawEventsOf txMeta).take maxItems).length)).reduceOption := by
    rw [consensusRows, flatEventsOf, ← List.reduceOption_append, ← List.mapIdx_append, take_append_unlistedEvents]
  rw [hsplit]
  exact (Cut.front _ _).of_iff reduceOption_mapIdx_eq_nil

/-- The list has an event if one of those it looks at has a body that is known. -/
theorem flatEvents_eq_nil_iff (txMeta : TransactionMeta) :
    flatEventsOf txMeta = [] ↔ ∀ e ∈ (rawEventsOf txMeta).take maxItems, e.isV0 = false :=
  reduceOption_mapIdx_eq_nil (f := fun index => index)

/-! ## Ledger entry changes -/

/-- The changes before and after the operations. -/
def transactionChanges : TransactionMeta → List LedgerEntryChange
  | .other _ => []
  | .v3 txChangesBefore _ txChangesAfter _ => txChangesBefore ++ txChangesAfter
  | .v4 txChangesBefore _ txChangesAfter _ _ _ => txChangesBefore ++ txChangesAfter

/-- All the changes of a meta: those of the operations, and the others. -/
def allChanges (txMeta : TransactionMeta) : List LedgerEntryChange := changesOf txMeta ++ transactionChanges txMeta

/-- The storage row of a change of contract data. -/
def storageRowOf : LedgerEntryChange → Option TraceStateChange
  | .created (.contractData contract key durability val) =>
    some ⟨.created, scAddressOf contract, durability, displayOf key, displayOf val⟩
  | .updated (.contractData contract key durability val) =>
    some ⟨.updated, scAddressOf contract, durability, displayOf key, displayOf val⟩
  | .restored (.contractData contract key durability val) =>
    some ⟨.restored, scAddressOf contract, durability, displayOf key, displayOf val⟩
  | .removed (.contractData contract key durability) =>
    some ⟨.removed, scAddressOf contract, durability, displayOf key, none⟩
  | _ => none

/-- The key hash of a lifetime that was not removed. -/
def ttlHashOf : LedgerEntryChange → Option Text
  | .created (.ttl keyHash _) => some (hexText keyHash.bytes)
  | .updated (.ttl keyHash _) => some (hexText keyHash.bytes)
  | .restored (.ttl keyHash _) => some (hexText keyHash.bytes)
  | .state (.ttl keyHash _) => some (hexText keyHash.bytes)
  | _ => none

namespace ChangesWalk

/-- The key hashes of the lifetimes that were found. -/
def hashes (w : ChangesWalk) : List Text := w.ttlByHash.map Prod.fst

theorem pushCandidate_kept (w : ChangesWalk) (candidate : KeyCandidate) :
    (w.pushCandidate candidate).stateChanges = w.stateChanges ∧ (w.pushCandidate candidate).hashes = w.hashes := by
  unfold pushCandidate
  split_ifs <;> exact ⟨rfl, rfl⟩

theorem pushStateChange_kept (w : ChangesWalk) (change : TraceStateChange) :
    (w.pushStateChange change).stateChanges = pushWithin maxItems w.stateChanges change ∧
      (w.pushStateChange change).hashes = w.hashes := by
  unfold pushStateChange pushWithin
  split_ifs <;> exact ⟨rfl, rfl⟩

theorem hashes_setTtl (ttls : List (Text × TtlValue)) (hash : Text) (ttl : TtlValue) :
    (setTtl ttls hash ttl).map Prod.fst = if hash ∈ ttls.map Prod.fst then ttls.map Prod.fst else ttls.map Prod.fst ++ [hash] := by
  have hany : (ttls.any fun t => decide (t.1 = hash)) = true ↔ hash ∈ ttls.map Prod.fst := by
    rw [List.any_eq_true, List.mem_map]
    simp only [decide_eq_true_eq]
  unfold setTtl
  simp only [hany]
  split_ifs
  · rw [List.map_map]
    refine List.map_congr_left fun t _ => ?_
    rw [Function.comp]
    split_ifs with h
    · exact h.symm
    · rfl
  · rw [List.map_append]
    rfl

theorem lookup_isSome_iff (ttls : List (Text × TtlValue)) (hash : Text) :
    (ttls.lookup hash).isSome ↔ hash ∈ ttls.map Prod.fst := by
  induction ttls with
  | nil => simp
  | cons t ttls ih =>
    rw [List.lookup_cons, List.map_cons, List.mem_cons]
    by_cases h : hash = t.1
    · simp [h]
    · simp [h, ih, beq_eq_false_iff_ne.mpr h]

/-- A lifetime adds its key hash, if it is new and there is room. -/
theorem pushTtl_kept (w : ChangesWalk) (written : Bool) (keyHash : Bytes32) (liveUntilLedgerSeq : BitVec 32) :
    (w.pushTtl written keyHash liveUntilLedgerSeq).stateChanges = w.stateChanges ∧
      (w.pushTtl written keyHash liveUntilLedgerSeq).hashes = insertWithin maxItems w.hashes (hexText keyHash.bytes) := by
  have hknown := lookup_isSome_iff w.ttlByHash (hexText keyHash.bytes)
  unfold pushTtl
  simp only
  split_ifs with hpush
  · refine ⟨rfl, ?_⟩
    have hroom : w.hashes.length < maxItems := by
      rw [hashes, List.length_map]
      exact of_decide_eq_true (Bool.and_eq_true_iff.mp hpush).2
    rw [insertWithin, pushWithin, if_pos hroom]
    refine (hashes_setTtl _ _ _).trans ?_
    by_cases hmem : hexText keyHash.bytes ∈ w.hashes
    · rw [if_pos hmem]
      exact if_pos hmem
    · rw [if_neg hmem]
      exact if_neg hmem
  · refine ⟨rfl, ?_⟩
    rw [insertWithin, pushWithin]
    split_ifs with hmem hroom
    · rfl
    · -- a new hash is only left out when there is no room for it
      rw [hashes, List.length_map] at hroom
      refine absurd ?_ hpush
      cases hlookup : w.ttlByHash.lookup (hexText keyHash.bytes) with
      | none => simpa using hroom
      | some ttl => exact absurd (hknown.mp (by rw [hlookup]; rfl)) hmem
    · rfl

theorem pushContractData_kept (w : ChangesWalk) (kind : Option StateChangeKind) (contract : ScAddress) (key : ScVal)
    (durability : Durability) (val : Option ScVal) :
    (w.pushContractData kind contract key durability val).stateChanges =
        (kind.map fun kind => (⟨kind, scAddressOf contract, durability, displayOf key, val.bind displayOf⟩ :
          TraceStateChange)).toList.foldl (pushWithin maxItems) w.stateChanges ∧
      (w.pushContractData kind contract key durability val).hashes = w.hashes := by
  unfold pushContractData
  cases kind with
  | none => exact pushCandidate_kept w _
  | some kind =>
    have hkept : ∀ candidate change,
        ((w.pushCandidate candidate).pushStateChange change).stateChanges = pushWithin maxItems w.stateChanges change ∧
          ((w.pushCandidate candidate).pushStateChange change).hashes = w.hashes := by
      intro candidate change
      obtain ⟨hrows, hhashes⟩ := pushCandidate_kept w candidate
      obtain ⟨hrows', hhashes'⟩ := pushStateChange_kept (w.pushCandidate candidate) change
      rw [hrows] at hrows'
      exact ⟨hrows', hhashes'.trans hhashes⟩
    exact hkept _ _

/-- What a change adds: its storage row and its key hash. -/
theorem pushChange_kept (w : ChangesWalk) (change : LedgerEntryChange) :
    (w.pushChange change).stateChanges = (storageRowOf change).toList.foldl (pushWithin maxItems) w.stateChanges ∧
      (w.pushChange change).hashes = (ttlHashOf change).toList.foldl (insertWithin maxItems) w.hashes := by
  cases change with
  | created data | updated data | restored data | state data =>
    cases data with
    | contractData contract key durability val => exact pushContractData_kept w _ contract key durability _
    | contractCode hash => exact pushCandidate_kept w _
    | ttl keyHash liveUntilLedgerSeq => exact pushTtl_kept w _ keyHash liveUntilLedgerSeq
    | other => exact ⟨rfl, rfl⟩
  | removed key =>
    cases key with
    | contractData contract key durability => exact pushContractData_kept w _ contract key durability none
    | contractCode hash => exact pushCandidate_kept w _
    | _ => exact ⟨rfl, rfl⟩

/-- What a run of changes adds. -/
theorem foldl_pushChange_kept (changes : List LedgerEntryChange) (w : ChangesWalk) :
    (changes.foldl pushChange w).stateChanges = (changes.filterMap storageRowOf).foldl (pushWithin maxItems) w.stateChanges ∧
      (changes.foldl pushChange w).hashes = (changes.filterMap ttlHashOf).foldl (insertWithin maxItems) w.hashes := by
  induction changes generalizing w with
  | nil => exact ⟨rfl, rfl⟩
  | cons change changes ih =>
    obtain ⟨hrows, hhashes⟩ := ih (w.pushChange change)
    obtain ⟨hrow, hhash⟩ := pushChange_kept w change
    rw [List.foldl_cons, hrows, hhashes, hrow, hhash]
    constructor
    · cases hrow' : storageRowOf change with
      | none => rw [List.filterMap_cons_none hrow']; rfl
      | some row => rw [List.filterMap_cons_some hrow']; rfl
    · cases hhashOf : ttlHashOf change with
      | none => rw [List.filterMap_cons_none hhashOf]; rfl
      | some hash => rw [List.filterMap_cons_some hhashOf]; rfl

end ChangesWalk

/-- The storage rows are those of the first changes. -/
theorem stateChanges_walkChanges (changes : List LedgerEntryChange) :
    (walkChanges changes).stateChanges = (changes.filterMap storageRowOf).take maxItems := by
  have hrows := (ChangesWalk.foldl_pushChange_kept changes ⟨[], [], []⟩).1
  rw [foldl_pushWithin maxItems _ [] (Nat.zero_le _), List.nil_append] at hrows
  exact hrows

/-- The storage rows past the cap are left out. -/
theorem cut_stateChanges (changes : List LedgerEntryChange) :
    Cut ((changes.filterMap storageRowOf).length ≤ maxItems) (walkChanges changes).stateChanges
      (changes.filterMap storageRowOf) := by
  rw [stateChanges_walkChanges]
  exact Cut.take _ _

/-- Of all the changes of a meta, the storage rows past the cap and those outside of the operations are left out. -/
theorem cut_allChanges (txMeta : TransactionMeta) :
    Cut (((changesOf txMeta).filterMap storageRowOf).length ≤ maxItems ∧ (transactionChanges txMeta).filterMap storageRowOf = [])
      (walkChanges (changesOf txMeta)).stateChanges ((allChanges txMeta).filterMap storageRowOf) := by
  rw [allChanges, List.filterMap_append]
  have hoperations := cut_stateChanges (changesOf txMeta)
  have hothers := Cut.front [] ((transactionChanges txMeta).filterMap storageRowOf)
  rw [← List.append_nil (walkChanges (changesOf txMeta)).stateChanges]
  exact hoperations.append hothers

/-- The key hashes of the lifetimes are collected within the cap. -/
theorem collected_ttlExtensions (changes : List LedgerEntryChange) :
    CollectedWithin maxItems (changes.filterMap ttlHashOf) ((walkChanges changes).ttlExtensions.map TraceTtl.keyHash) := by
  have hhashes := (ChangesWalk.foldl_pushChange_kept changes ⟨[], [], []⟩).2
  have hmap : (walkChanges changes).ttlExtensions.map TraceTtl.keyHash = (walkChanges changes).hashes := List.map_map
  rw [hmap, walkChanges, hhashes]
  exact collectedWithin_foldl _ _

/-- Of all the changes of a meta, every key hash is collected if the operations have no more different ones than the cap, and the
other changes have none besides. -/
theorem lifetimes_subset_iff (txMeta : TransactionMeta) :
    (allChanges txMeta).filterMap ttlHashOf ⊆ (walkChanges (changesOf txMeta)).ttlExtensions.map TraceTtl.keyHash ↔
      ((changesOf txMeta).filterMap ttlHashOf).dedup.length ≤ maxItems ∧
        (transactionChanges txMeta).filterMap ttlHashOf ⊆ (changesOf txMeta).filterMap ttlHashOf := by
  have hcollected := collected_ttlExtensions (changesOf txMeta)
  rw [allChanges, List.filterMap_append, List.append_subset, hcollected.subset_iff]
  refine and_congr_right fun hroom => ⟨fun h => List.Subset.trans h hcollected.subset, fun h => ?_⟩
  exact List.Subset.trans h (hcollected.subset_iff.mpr hroom)

/-- Finding the owner of a lifetime leaves its key hash alone. -/
theorem keyHash_resolveTtlOwners (digest : Option (Bytes → Option Bytes)) (ttlExtensions : List TraceTtl)
    (keyCandidates : List KeyCandidate) :
    (resolveTtlOwners digest ttlExtensions keyCandidates).map TraceTtl.keyHash = ttlExtensions.map TraceTtl.keyHash := by
  unfold resolveTtlOwners
  cases digest with
  | none => rfl
  | some digest =>
    simp only
    split
    · rfl
    · rw [List.map_map]
      refine List.map_congr_left fun ttl _ => ?_
      rw [Function.comp]
      split <;> rfl

/-! ## Authorized invocations -/

mutual

/-- An authorized function and those it calls in turn, as nodes that stand alone. -/
def AuthorizedInvocation.nodes : AuthorizedInvocation → List TraceCall
  | .mk function subInvocations => authNode function 0 :: nodesOfInvocations subInvocations

/-- The nodes of several invocations. -/
def nodesOfInvocations : List AuthorizedInvocation → List TraceCall
  | [] => []
  | sub :: subs => sub.nodes ++ nodesOfInvocations subs

end

mutual

/-- How far down the calls of an invocation go. -/
def AuthorizedInvocation.height : AuthorizedInvocation → Nat
  | .mk _ subInvocations => heightOfSubs subInvocations

/-- How far down the calls of several sub-invocations go, seen from the caller. -/
def heightOfSubs : List AuthorizedInvocation → Nat
  | [] => 0
  | sub :: subs => max (sub.height + 1) (heightOfSubs subs)

end

mutual

/-- The calls of a tree, as nodes that stand alone. -/
def TraceCall.nodes : TraceCall → List TraceCall
  | ⟨contract, fn, args, _, _, calls, _⟩ => ⟨contract, fn, args, none, [], [], 0⟩ :: nodesOfCalls calls

/-- The calls of several trees. -/
def nodesOfCalls : List TraceCall → List TraceCall
  | [] => []
  | call :: calls => call.nodes ++ nodesOfCalls calls

end

theorem nodesOfInvocations_eq (subs : List AuthorizedInvocation) :
    nodesOfInvocations subs = subs.flatMap AuthorizedInvocation.nodes := by
  induction subs with
  | nil => rfl
  | cons sub subs ih => rw [nodesOfInvocations, List.flatMap_cons, ih]

theorem nodesOfCalls_eq (calls : List TraceCall) : nodesOfCalls calls = calls.flatMap TraceCall.nodes := by
  induction calls with
  | nil => rfl
  | cons call calls ih => rw [nodesOfCalls, List.flatMap_cons, ih]

theorem heightOfSubs_le {subs : List AuthorizedInvocation} {n : Nat} :
    heightOfSubs subs ≤ n ↔ ∀ sub ∈ subs, sub.height + 1 ≤ n := by
  induction subs with
  | nil => simp [heightOfSubs]
  | cons sub subs ih => rw [heightOfSubs, max_le_iff, ih, List.forall_mem_cons]

/-- The induction over invocations: one is right if its sub-invocations are. -/
theorem AuthorizedInvocation.induction {P : AuthorizedInvocation → Prop}
    (mk : ∀ function subs, (∀ sub ∈ subs, P sub) → P (.mk function subs)) (invocation : AuthorizedInvocation) : P invocation :=
  AuthorizedInvocation.rec (motive_1 := P) (motive_2 := fun subs => ∀ sub ∈ subs, P sub) mk
    (fun _ h => absurd h List.not_mem_nil) (fun _ _ hsub hsubs => List.forall_mem_cons.mpr ⟨hsub, hsubs⟩) invocation

/-- The nodes of the trees that were found. -/
theorem nodesOfCalls_filterMap {α : Type} (f : α → Option TraceCall) (l : List α) :
    nodesOfCalls (l.filterMap f) = l.flatMap fun a => nodesOfCalls (f a).toList := by
  induction l with
  | nil => rfl
  | cons a l ih =>
    rw [List.flatMap_cons, ← ih]
    cases hf : f a with
    | none =>
      rw [List.filterMap_cons_none hf]
      rfl
    | some call => rw [List.filterMap_cons_some hf, Option.toList_some, nodesOfCalls, nodesOfCalls, nodesOfCalls, List.append_nil]

/-- The number that a node gets among its siblings does not change what it holds. -/
theorem nodes_withSeq (call : TraceCall) (seq : Nat) : TraceCall.nodes { call with seq } = call.nodes := by
  cases call
  rfl

/-- A node with calls inside it. -/
theorem nodes_authNode (function : AuthorizedFunction) (depth : Nat) (calls : List TraceCall) :
    TraceCall.nodes { authNode function depth with calls } = authNode function 0 :: nodesOfCalls calls := by
  cases function <;> rfl

theorem nodesOfCalls_fromSubInvocations (depth index : Nat) (subs : List AuthorizedInvocation) :
    nodesOfCalls (fromSubInvocations depth index subs) =
      subs.flatMap fun sub => nodesOfCalls (fromAuthInvocation depth sub).toList := by
  induction subs generalizing index with
  | nil => rfl
  | cons sub subs ih =>
    rw [fromSubInvocations, List.flatMap_cons, ← ih (index + 1)]
    cases fromAuthInvocation depth sub with
    | none => rfl
    | some child =>
      simp only [Option.toList_some, nodesOfCalls, nodes_withSeq, List.append_nil]

/-- Invocations below the greatest depth are left out. -/
theorem cut_fromAuthInvocation (invocation : AuthorizedInvocation) :
    ∀ depth, Cut (depth + invocation.height ≤ maxAuthDepth) (nodesOfCalls (fromAuthInvocation depth invocation).toList)
      invocation.nodes := by
  induction invocation using AuthorizedInvocation.induction with
  | mk function subs ih =>
    intro depth
    rw [fromAuthInvocation, AuthorizedInvocation.height, AuthorizedInvocation.nodes]
    split_ifs with hdeep
    · refine ((Cut.front [] _).of_iff (iff_of_false (List.cons_ne_nil _ _) ?_))
      omega
    · have hsubs : Cut (∀ sub ∈ subs, depth + 1 + sub.height ≤ maxAuthDepth)
          (nodesOfCalls (fromSubInvocations (depth + 1) 0 subs)) (nodesOfInvocations subs) := by
        rw [nodesOfCalls_fromSubInvocations, nodesOfInvocations_eq]
        exact Cut.flatMap fun sub hsub => ih sub hsub (depth + 1)
      rw [Option.toList_some, nodesOfCalls, nodesOfCalls, List.append_nil, nodes_authNode]
      refine (hsubs.cons _).of_iff ?_
      rw [show depth + heightOfSubs subs ≤ maxAuthDepth ↔ heightOfSubs subs ≤ maxAuthDepth - depth by omega, heightOfSubs_le]
      refine forall₂_congr fun sub _ => ?_
      omega

/-- Whether `walkEnvelope` takes the root of an authorization entry for the host call: it compares the contracts and the names, not
the arguments. -/
def repeatsCall (root : TraceCall) : AuthorizedFunction → Bool
  | .contractFn call => decide ((callOf call 0).contract = root.contract) && decide ((callOf call 0).fn = root.fn)
  | .createContract => false

/-- The function of the root of an authorization entry. -/
def AuthorizedInvocation.function : AuthorizedInvocation → AuthorizedFunction
  | .mk function _ => function

open Classical in
/-- What an authorization entry has to show: a root that is the host call itself, arguments and all, is left out. -/
noncomputable def entryNodes (call : InvokeContractArgs) : AuthorizedInvocation → List TraceCall
  | .mk function subInvocations =>
    if function = .contractFn call then nodesOfInvocations subInvocations
    else AuthorizedInvocation.nodes (.mk function subInvocations)

/-- What an operation has to show: the host call, if it calls a contract, and the authorized invocations. -/
noncomputable def operationNodes : OperationBody → List TraceCall
  | .invokeHostFunction (.invokeContract call) auth => callOf call 0 :: auth.flatMap (entryNodes call)
  | .invokeHostFunction .other auth => nodesOfInvocations auth
  | .other => []

/-- What an envelope has to show. -/
noncomputable def envelopeNodes (envelope : TransactionEnvelope) : List TraceCall :=
  ((innerOperations envelope).getD []).flatMap operationNodes

/-- The condition on the authorization data of an operation: the entries of a call are at most eight calls deep, a root with the
contract and the name of the host call is the host call, and another function of the host has no entries. -/
def OperationBody.Shown : OperationBody → Prop
  | .invokeHostFunction (.invokeContract call) auth => ∀ entry ∈ auth, entry.height ≤ maxAuthDepth ∧
      (repeatsCall (callOf call 0) entry.function = true → entry.function = .contractFn call)
  | .invokeHostFunction .other auth => auth = []
  | .other => True

theorem authCalls_eq (root : TraceCall) (function : AuthorizedFunction) (subs : List AuthorizedInvocation) :
    authCalls root (.mk function subs) = if repeatsCall root function then subs.filterMap (fromAuthInvocation 1)
      else (fromAuthInvocation 0 (.mk function subs)).toList := by
  cases function <;> rfl

/-- The host call repeats itself. -/
theorem repeatsCall_self (call : InvokeContractArgs) : repeatsCall (callOf call 0) (.contractFn call) = true := by
  simp [repeatsCall]

/-- The sub-invocations of a root, without the root. -/
theorem cut_subInvocations (function : AuthorizedFunction) (subs : List AuthorizedInvocation) :
    Cut ((AuthorizedInvocation.mk function subs).height ≤ maxAuthDepth) (nodesOfCalls (subs.filterMap (fromAuthInvocation 1)))
      (nodesOfInvocations subs) := by
  rw [nodesOfCalls_filterMap, nodesOfInvocations_eq]
  refine (Cut.flatMap fun sub _ => cut_fromAuthInvocation sub 1).of_iff ?_
  rw [AuthorizedInvocation.height, heightOfSubs_le]
  refine forall₂_congr fun sub _ => ?_
  omega

/-- An entry is shown unless it goes too deep, or its root has the name of the host call and is another call. -/
theorem cut_authCalls (call : InvokeContractArgs) (entry : AuthorizedInvocation) :
    Cut (entry.height ≤ maxAuthDepth ∧ (repeatsCall (callOf call 0) entry.function = true → entry.function = .contractFn call))
      (nodesOfCalls (authCalls (callOf call 0) entry)) (entryNodes call entry) := by
  obtain ⟨function, subs⟩ := entry
  rw [authCalls_eq, entryNodes, AuthorizedInvocation.function]
  by_cases hsame : function = .contractFn call
  · rw [if_pos hsame, if_pos (hsame ▸ repeatsCall_self call)]
    exact (cut_subInvocations function subs).of_iff (iff_of_eq (by simp [hsame]))
  · rw [if_neg hsame]
    by_cases hrepeats : repeatsCall (callOf call 0) function = true
    · -- the root is passed over, though it is another call
      rw [if_pos hrepeats, AuthorizedInvocation.nodes]
      have hsubs := (cut_subInvocations function subs).length_le
      refine ⟨fun h => absurd (h.2 hrepeats) hsame, fun _ => ?_⟩
      rw [List.length_cons]
      omega
    · rw [if_neg hrepeats]
      refine (cut_fromAuthInvocation (.mk function subs) 0).of_iff ?_
      rw [Nat.zero_add, and_iff_left fun h => absurd h hrepeats]

/-- Authorized invocations are left out below the greatest depth, where a root that is not the host call has its contract and name,
and where the host calls no contract. -/
theorem cut_walkEnvelope (envelope : TransactionEnvelope) :
    Cut (∀ operation ∈ (innerOperations envelope).getD [], operation.Shown) (nodesOfCalls (walkEnvelope envelope))
      (envelopeNodes envelope) := by
  rw [walkEnvelope, nodesOfCalls_filterMap, envelopeNodes]
  refine Cut.flatMap fun operation _ => ?_
  rcases operation with ⟨⟨call⟩ | _, auth⟩ | _
  · have hauth : nodesOfCalls (auth.flatMap (authCalls (callOf call 0))) =
        auth.flatMap fun entry => nodesOfCalls (authCalls (callOf call 0) entry) := by
      rw [nodesOfCalls_eq, List.flatMap_assoc]
      simp only [nodesOfCalls_eq]
    have hentries := Cut.flatMap fun entry (_ : entry ∈ auth) => cut_authCalls call entry
    rw [← hauth] at hentries
    have hcall := hentries.cons (callOf call 0)
    rw [show operationCall (.invokeHostFunction (.invokeContract call) auth) = some _ from rfl, Option.toList_some,
      nodesOfCalls, nodesOfCalls, List.append_nil]
    exact hcall
  · refine (Cut.front [] _).of_iff ?_
    show nodesOfInvocations auth = [] ↔ auth = []
    cases auth with
    | nil => exact iff_of_true rfl rfl
    | cons entry entries =>
      cases entry
      exact iff_of_false (List.cons_ne_nil _ _) (List.cons_ne_nil _ _)
  · exact Cut.refl []

end Soroscan

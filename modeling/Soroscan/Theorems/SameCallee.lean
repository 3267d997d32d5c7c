import Soroscan.Extract
import Soroscan.Lemmas.FirstCall

/-!
# One callee for the index and the trace

The index records the first event that has the shape of a host's report of a call, whoever emitted it. The tree of calls begins
with the first event of the host that is labelled as a call, whatever the shape of the rest. The two name the same callee exactly
when the recorded event is one of the host, and the first call of the tree names what it names.
-/

namespace Soroscan

/-- The event that the index records. -/
def recordedEvent (events : List ContractEvent) : Option ContractEvent := events.find? fun e => (fnCall e).isSome

/-- The recorded event is none that a contract emitted, and the first root call of the tree has its contract and its function. -/
structure CalleeAgrees (inv : Invocation) (events : List ContractEvent) : Prop where
  fromHost : ∀ e, recordedEvent events = some e → e.type ≠ .contract
  sameCallee : ∀ call calls, (walkDiagnostics events).calls = call :: calls →
    call.contract = some (js inv.contractID) ∧ call.fn = ScReader.fromCharCode inv.function

/-- The condition on the events. The one that the index records is of the host, and the first call of the host, unless the walk
stops before it, names the same contract and function. -/
def CallsMatch (events : List ContractEvent) : Prop :=
  ∀ e id name data, recordedEvent events = some e → e.body = .v0 [.symbol fnCallSymbol, .bytes id.bytes, .symbol name] data →
    e.type ≠ .contract ∧ ∀ topics, firstCall 0 events = some topics → NamesCallee topics id name

/-! ## The recorded event -/

/-- The shape of an event that the index takes for a call. -/
theorem fnCall_eq_some_iff {e : ContractEvent} {contractID : Text} {function : Bytes} {args : ScVal} :
    fnCall e = some (contractID, function, args) ↔ ∃ id : Bytes32, contractID = contractStrkey id ∧
      e.body = .v0 [.symbol fnCallSymbol, .bytes id.bytes, .symbol function] args := by
  constructor
  · intro h
    unfold fnCall at h
    split at h
    next label rawID name data hbody =>
      split_ifs at h with hlabel hlen
      cases h
      rw [not_not] at hlabel
      exact ⟨⟨rawID, hlen⟩, rfl, by rw [hbody, hlabel]⟩
    next => cases h
  · rintro ⟨id, rfl, hbody⟩
    unfold fnCall
    rw [hbody]
    simp [id.length_eq]

/-- What the index takes from the events comes from the recorded one. -/
theorem findSome?_fnCall (events : List ContractEvent) : events.findSome? fnCall = (recordedEvent events).bind fnCall := by
  unfold recordedEvent
  induction events with
  | nil => rfl
  | cons e es ih =>
    rw [List.findSome?_cons, List.find?_cons]
    cases h : fnCall e with
    | none => exact ih
    | some call => exact h.symm

/-- A recorded event has the shape of a call. -/
theorem body_of_recordedEvent {events : List ContractEvent} {e : ContractEvent} (h : recordedEvent events = some e) :
    ∃ (id : Bytes32) (name : Bytes) (data : ScVal), e.body = .v0 [.symbol fnCallSymbol, .bytes id.bytes, .symbol name] data := by
  have hsome : (fnCall e).isSome = true := by
    unfold recordedEvent at h
    simpa only using List.find?_some h
  obtain ⟨⟨contractID, name, data⟩, hcall⟩ := Option.isSome_iff_exists.mp hsome
  obtain ⟨id, -, hbody⟩ := fnCall_eq_some_iff.mp hcall
  exact ⟨id, name, data, hbody⟩

/-- The invocation of a transaction has the callee of the recorded event. -/
theorem exists_invocationOf {scValString : ScVal → Bytes} {sequence : BitVec 32} {closedAt : Time} {tx : TransactionResultMeta}
    {events : List ContractEvent} (hevents : diagnosticEvents tx.txApplyProcessing = some events) {e : ContractEvent}
    (he : recordedEvent events = some e) {id : Bytes32} {name : Bytes} {data : ScVal}
    (hbody : e.body = .v0 [.symbol fnCallSymbol, .bytes id.bytes, .symbol name] data) :
    ∃ inv, invocationOf scValString sequence closedAt tx = some inv ∧ inv.contractID = contractStrkey id ∧ inv.function = name := by
  have hcall : fnCall e = some (contractStrkey id, name, data) := fnCall_eq_some_iff.mpr ⟨id, rfl, hbody⟩
  unfold invocationOf
  rw [hevents, Option.bind_some, findSome?_fnCall, he, Option.bind_some, hcall]
  exact ⟨_, rfl, rfl, rfl⟩

/-- Without a recorded event there is no invocation. -/
theorem recordedEvent_of_invocationOf {scValString : ScVal → Bytes} {sequence : BitVec 32} {closedAt : Time}
    {tx : TransactionResultMeta} {events : List ContractEvent} (hevents : diagnosticEvents tx.txApplyProcessing = some events)
    {inv : Invocation} (h : invocationOf scValString sequence closedAt tx = some inv) : ∃ e, recordedEvent events = some e := by
  unfold invocationOf at h
  rw [hevents, Option.bind_some, findSome?_fnCall] at h
  cases he : recordedEvent events with
  | none =>
    rw [he] at h
    cases h
  | some e => exact ⟨e, rfl⟩

/-! ## The two readers -/

/-- The first root call of the tree has a callee when the first call of the host names it. -/
theorem sameCallee_iff {events : List ContractEvent} (hsized : ∀ e ∈ events, e.Sized) (id : Bytes32) (name : Bytes) :
    (∀ call calls, (walkDiagnostics events).calls = call :: calls →
        call.contract = some (js (contractStrkey id)) ∧ call.fn = ScReader.fromCharCode name) ↔
      ∀ topics, firstCall 0 events = some topics → NamesCallee topics id name := by
  have hroot := root_walkDiagnostics hsized
  have hnames : ∀ topics, firstCall 0 events = some topics →
      (calleeOf topics = (some (js (contractStrkey id)), ScReader.fromCharCode name) ↔ NamesCallee topics id name) := by
    intro topics hfirst
    obtain ⟨e, he, hopens⟩ := exists_of_firstCall hfirst
    obtain ⟨data, hbody⟩ := ContractEvent.body_of_opens hopens
    exact calleeOf_eq_iff (hsized e he topics data hbody).1 id name
  constructor
  · intro h topics hfirst
    rw [hfirst, Option.map_some] at hroot
    cases hcalls : (walkDiagnostics events).calls with
    | nil =>
      rw [hcalls] at hroot
      cases hroot
    | cons call calls =>
      rw [hcalls] at hroot
      obtain ⟨hcontract, hfn⟩ := h call calls hcalls
      refine (hnames topics hfirst).mp ((Option.some.inj hroot).symm.trans ?_)
      rw [TraceCall.callee, hcontract, hfn]
  · intro h call calls hcalls
    rw [hcalls] at hroot
    cases hfirst : firstCall 0 events with
    | none =>
      rw [hfirst] at hroot
      cases hroot
    | some topics =>
      rw [hfirst] at hroot
      have hcallee := (Option.some.inj hroot).trans ((hnames topics hfirst).mpr (h topics hfirst))
      exact ⟨congrArg Prod.fst hcallee, congrArg Prod.snd hcallee⟩

/-- For every transaction with diagnostic events: the invocation that the index records, if any, is one that the host reported and
has the callee of the first root call of the tree, if there is one, exactly when the events match. -/
theorem calleeAgrees_iff_callsMatch (scValString : ScVal → Bytes) (sequence : BitVec 32) (closedAt : Time)
    (tx : TransactionResultMeta) {events : List ContractEvent} (hevents : diagnosticEvents tx.txApplyProcessing = some events)
    (hsized : ∀ e ∈ events, e.Sized) :
    (∀ inv, invocationOf scValString sequence closedAt tx = some inv → CalleeAgrees inv events) ↔ CallsMatch events := by
  constructor
  · intro h e id name data he hbody
    obtain ⟨inv, hinv, hid, hname⟩ := @exists_invocationOf scValString sequence closedAt tx events hevents e he id name data hbody
    have hagrees := h inv hinv
    refine ⟨hagrees.fromHost e he, (sameCallee_iff hsized id name).mp ?_⟩
    rw [← hid, ← hname]
    exact hagrees.sameCallee
  · intro h inv hinv
    obtain ⟨e, he⟩ := recordedEvent_of_invocationOf hevents hinv
    obtain ⟨id, name, data, hbody⟩ := body_of_recordedEvent he
    obtain ⟨inv', hinv', hid, hname⟩ := @exists_invocationOf scValString sequence closedAt tx events hevents e he id name data hbody
    rw [hinv] at hinv'
    cases hinv'
    obtain ⟨htype, hnames⟩ := h e id name data he hbody
    refine ⟨fun e' he' => ?_, ?_⟩
    · rw [he] at he'
      cases he'
      exact htype
    · rw [hid, hname]
      exact (sameCallee_iff hsized id name).mpr hnames

/-! ## Two streams -/

/-- The symbol `transfer`. -/
def transferSymbol : Bytes := [116, 114, 97, 110, 115, 102, 101, 114]

/-- The symbol `mint`. -/
def mintSymbol : Bytes := [109, 105, 110, 116]

/-- An event of a contract, and the reports of a call with the bytes of the callee, of a call inside it with an address, and of both
returns. -/
def reportedEvents : List ContractEvent :=
  [⟨some (Bytes32.fill 1), .contract, .v0 [.symbol mintSymbol] (.i64 7)⟩,
   ⟨none, .diagnostic, .v0 [.symbol fnCallSymbol, .bytes Bytes32.zero.bytes, .symbol transferSymbol]
     (.vec (some [.u32 1, .address (.contract (Bytes32.fill 1))]))⟩,
   ⟨none, .diagnostic, .v0 [.symbol fnCallSymbol, .address (.contract (Bytes32.fill 1)), .symbol mintSymbol] .void⟩,
   ⟨none, .diagnostic, .v0 [.symbol fnReturnSymbol, .symbol mintSymbol] (.bool true)⟩,
   ⟨none, .diagnostic, .v0 [.symbol fnReturnSymbol, .symbol transferSymbol] .void⟩]

/-- The report of a call with the address of the callee, and an event of the callee that has the shape of a report of another
contract's call. -/
def spoofedEvents : List ContractEvent :=
  [⟨none, .diagnostic, .v0 [.symbol fnCallSymbol, .address (.contract Bytes32.zero), .symbol transferSymbol] .void⟩,
   ⟨some Bytes32.zero, .contract, .v0 [.symbol fnCallSymbol, .bytes (Bytes32.fill 1).bytes, .symbol mintSymbol] .void⟩]

/-- A transaction of version 4 with these diagnostic events. -/
def transactionWith (events : List ContractEvent) : TransactionResultMeta :=
  ⟨⟨Bytes32.zero, 100⟩, .v4 [] [] [] (some ⟨none⟩) [] events⟩

theorem calleeAgrees_reportedEvents :
    CallsMatch reportedEvents ∧
      ((∀ inv, invocationOf (fun _ => []) 1 0 (transactionWith reportedEvents) = some inv → CalleeAgrees inv reportedEvents) ↔
        CallsMatch reportedEvents) := by
  have hsized : ∀ e ∈ reportedEvents, e.Sized := by
    refine ContractEvent.forall_sized 2 ?_
    decide
  refine ⟨fun e id name data he hbody => ?_, calleeAgrees_iff_callsMatch (fun _ => []) 1 0 (transactionWith reportedEvents) rfl hsized⟩
  have hrecorded : recordedEvent reportedEvents = some ⟨none, .diagnostic,
      .v0 [.symbol fnCallSymbol, .bytes Bytes32.zero.bytes, .symbol transferSymbol]
        (.vec (some [.u32 1, .address (.contract (Bytes32.fill 1))]))⟩ := rfl
  obtain rfl := Option.some.inj (hrecorded.symm.trans he)
  obtain ⟨⟨hid, hname⟩, -⟩ : (Bytes32.zero.bytes = id.bytes ∧ transferSymbol = name) ∧ _ = data := by simpa using hbody
  refine ⟨nofun, fun topics htopics => ?_⟩
  have hfirst : firstCall 0 reportedEvents = some [.symbol fnCallSymbol, .bytes Bytes32.zero.bytes, .symbol transferSymbol] := rfl
  obtain rfl := Option.some.inj (hfirst.symm.trans htopics)
  rw [← hname]
  exact ⟨Or.inl (by rw [hid]; rfl), by decide⟩

/-- The index records a call of `mint` that the host never reported; the tree begins with the call of `transfer`. -/
theorem spoofedEvents_disagree : ∃ inv, invocationOf (fun _ => []) 1 0 (transactionWith spoofedEvents) = some inv ∧
    (∃ e, recordedEvent spoofedEvents = some e ∧ e.type = .contract) ∧
    (∃ call calls, (walkDiagnostics spoofedEvents).calls = call :: calls ∧ call.contract ≠ some (js inv.contractID) ∧
      call.fn ≠ ScReader.fromCharCode inv.function) ∧
    ¬CalleeAgrees inv spoofedEvents := by
  have hsized : ∀ e ∈ spoofedEvents, e.Sized := by
    refine ContractEvent.forall_sized 1 ?_
    decide
  have hrecorded : recordedEvent spoofedEvents = some
      ⟨some Bytes32.zero, .contract, .v0 [.symbol fnCallSymbol, .bytes (Bytes32.fill 1).bytes, .symbol mintSymbol] .void⟩ := rfl
  obtain ⟨inv, hinv, hid, hname⟩ :=
    @exists_invocationOf (fun _ => []) 1 0 (transactionWith spoofedEvents) spoofedEvents rfl _ hrecorded (Bytes32.fill 1) mintSymbol
      .void rfl
  have hcallee := (@calleeOf_eq_iff [.symbol fnCallSymbol, .address (.contract Bytes32.zero), .symbol transferSymbol]
    (hsized _ List.mem_cons_self _ _ rfl).1 Bytes32.zero transferSymbol).mpr ⟨Or.inr rfl, by decide⟩
  have hroot := root_walkDiagnostics hsized
  rw [show firstCall 0 spoofedEvents =
    some [.symbol fnCallSymbol, .address (.contract Bytes32.zero), .symbol transferSymbol] from rfl, Option.map_some, hcallee] at hroot
  refine ⟨inv, hinv, ⟨_, hrecorded, rfl⟩, ?_, fun hagrees => hagrees.fromHost _ hrecorded rfl⟩
  cases hcalls : (walkDiagnostics spoofedEvents).calls with
  | nil =>
    rw [hcalls] at hroot
    cases hroot
  | cons call calls =>
    rw [hcalls] at hroot
    have hcall : call.callee = (some (js (contractStrkey Bytes32.zero)), ScReader.fromCharCode transferSymbol) :=
      Option.some.inj hroot
    refine ⟨call, calls, rfl, fun hsame => ?_, fun hsame => ?_⟩
    · have hcontract : call.contract = some (js (contractStrkey Bytes32.zero)) := congrArg Prod.fst hcall
      rw [hcontract, hid] at hsame
      exact absurd (js_contractStrkey_injective (Option.some.inj hsame)) (by decide)
    · have hfn : call.fn = ScReader.fromCharCode transferSymbol := congrArg Prod.snd hcall
      rw [hfn, hname] at hsame
      exact absurd (fromCharCode_injective hsame) (by decide)

end Soroscan

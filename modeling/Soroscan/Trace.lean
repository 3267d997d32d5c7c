import Soroscan.ScDisplay
import Soroscan.ToXdr

/-!
# The execution trace

`tx-trace.ts`: what the explorer shows of a transaction. The diagnostic events of the meta are walked into a tree of calls; the
ledger entry changes become storage rows and lifetimes; without diagnostic calls the tree is put together from the authorization
data of the envelope.
-/

namespace Soroscan

/-- `TraceEvent`: a contract event, and when it fired among its siblings. -/
structure TraceEvent where
  contract : Option JsString
  topics : List (Option ScDisplay)
  data : Option ScDisplay
  seq : Nat
  deriving Repr

/-- `TraceCall`: one node of the tree of calls. -/
structure TraceCall where
  contract : Option JsString
  fn : JsString
  args : List (Option ScDisplay)
  result : Option ScDisplay
  events : List TraceEvent
  calls : List TraceCall
  seq : Nat
  deriving Repr

/-- The kinds of a storage row. -/
inductive StateChangeKind where
  | created | updated | removed | restored
  deriving DecidableEq, Repr

/-- `TraceStateChange`. -/
structure TraceStateChange where
  kind : StateChangeKind
  contract : Option JsString
  durability : Durability
  key : Option ScDisplay
  value : Option ScDisplay
  deriving Repr

/-- What a lifetime is the lifetime of. -/
inductive TtlEntryKind where
  | contractState | contractInstance | contractCode
  deriving DecidableEq, Repr

/-- `TraceTtl`: the lifetime of the entry behind a key hash. -/
structure TraceTtl where
  keyHash : Text
  liveUntilLedger : Nat
  contract : Option JsString
  entry : Option TtlEntryKind
  deriving Repr

/-- `TraceFees`, in stroops. -/
structure TraceFees where
  nonRefundable : Text
  refundable : Text
  rent : Text
  deriving Repr

/-- Where the tree of calls comes from. -/
inductive TraceSource where
  | diagnostics | auth
  deriving DecidableEq, Repr

/-- `TxTrace`. -/
structure TxTrace where
  source : TraceSource
  calls : List TraceCall
  events : List TraceEvent
  stateChanges : List TraceStateChange
  ttlExtensions : List TraceTtl
  metrics : List (JsString × JsString)
  fees : Option TraceFees
  truncated : Bool
  deriving Repr

/-- `MAX_ITEMS`: the cap of each list. -/
def maxItems : Nat := 500

/-- `symbolOf`. -/
def symbolOf : Option ScDisplay → Option JsString
  | some (.text .sym text) => some text
  | _ => none

/-- A hexadecimal digit in lower case. -/
def isHexDigit (c : Char) : Bool := (hexValue c).isSome

/-- `contractOf`: an address, or the strkey of 32 bytes shown in hexadecimal. -/
def contractOf : Option ScDisplay → Option JsString
  | some (.address address) => some address
  | some (.text .bytes text) =>
    let hex := charsOf (text.drop 2)
    if hex.length = 64 ∧ hex.all isHexDigit then
      (readHex hex).map fun bytes => js (encodeStrkey strkeyVersionContract bytes)
    else none
  | _ => none

/-- `decodeScVal` of a value: what is shown of it. -/
def displayOf (v : ScVal) : Option ScDisplay := decodeScVal v.b64

/-- `scAddressOf`. -/
def scAddressOf (address : ScAddress) : Option JsString := decodeScAddress (ScVal.b64 (.address address))

/-- `contractIdOf`. -/
def contractIdOf (id : Option Bytes32) : Option JsString := id.bind fun id => scAddressOf (.contract id)

/-- A value shown, or nothing for one that is void. -/
def unlessVoid : Option ScDisplay → Option ScDisplay
  | some (.text .void _) => none
  | value => value

/-- `eventOf`: the event of a raw one, if its body is known. -/
def eventOf (raw : ContractEvent) (seq : Nat) : Option TraceEvent :=
  match raw.body with
  | .other _ => none
  | .v0 topics data =>
    some { contract := contractIdOf raw.contractId, topics := topics.map displayOf, data := unlessVoid (displayOf data), seq }

/-! ## The walk over the diagnostic events -/

/-- `DiagnosticWalk`. -/
structure DiagnosticWalk where
  calls : List TraceCall
  events : List TraceEvent
  metrics : List (JsString × JsString)
  truncated : Bool

/-- The variables of the walk. The source has an open frame on the stack and in the list of its caller at once; here it is put
into that list when it is taken off the stack, or when the walk ends. The innermost frame comes first. -/
structure Walk where
  calls : List TraceCall
  events : List TraceEvent
  metrics : List (JsString × JsString)
  stack : List TraceCall
  nodes : Nat
  raised : Nat
  seq : Nat

namespace Walk

def start : Walk := ⟨[], [], [], [], 0, 0, 0⟩

/-- The open frames, each in the list of its caller: at most one outermost frame. -/
def nest (stack : List TraceCall) : List TraceCall :=
  stack.foldl (fun inner frame => [{ frame with calls := frame.calls ++ inner }]) []

/-- What the walk returns where it stands. -/
def result (w : Walk) (truncated : Bool) : DiagnosticWalk := ⟨w.calls ++ nest w.stack, w.events, w.metrics, truncated⟩

/-- An event, on the frame that is executing. -/
def pushEvent (w : Walk) (event : TraceEvent) : Walk :=
  match w.stack with
  | [] => { w with events := w.events ++ [event] }
  | frame :: callers => { w with stack := { frame with events := frame.events ++ [event] } :: callers }

/-- A finished call, in the list of the frame that is executing. -/
def pushCall (w : Walk) (call : TraceCall) : Walk :=
  match w.stack with
  | [] => { w with calls := w.calls ++ [call] }
  | frame :: callers => { w with stack := { frame with calls := frame.calls ++ [call] } :: callers }

/-- The innermost frame returns. Without an open frame nothing does. -/
def closeFrame (w : Walk) (result : Option ScDisplay) : Walk :=
  match w.stack with
  | [] => w
  | frame :: callers => pushCall { w with stack := callers } { frame with result }

end Walk

/-- The label `core_metrics`. -/
def coreMetricsLabel : JsString := js ['c', 'o', 'r', 'e', '_', 'm', 'e', 't', 'r', 'i', 'c', 's']

/-- The label `fn_call`. -/
def fnCallLabel : JsString := js ['f', 'n', '_', 'c', 'a', 'l', 'l']

/-- The label `fn_return`. -/
def fnReturnLabel : JsString := js ['f', 'n', '_', 'r', 'e', 't', 'u', 'r', 'n']

/-- The name a function without one is given. -/
def unknownName : JsString := js ['u', 'n', 'k', 'n', 'o', 'w', 'n']

/-- The name that cannot be set on a plain object. -/
def protoName : JsString := js ['_', '_', 'p', 'r', 'o', 't', 'o', '_', '_']

/-- `metrics[name] = value`. -/
def setMetric (metrics : List (JsString × JsString)) (name value : JsString) : List (JsString × JsString) :=
  if name = protoName then metrics
  else if metrics.any fun m => m.1 = name then metrics.map fun m => if m.1 = name then (name, value) else m
  else metrics ++ [(name, value)]

/-- The label of an event: its first topic, if that is a symbol. -/
def labelOf (topics : List ScVal) : Option JsString := symbolOf (topics[0]?.bind displayOf)

/-- The counters with that of an event, if the event has one. -/
def metricsWith (metrics : List (JsString × JsString)) (topics : List ScVal) (data : ScVal) : List (JsString × JsString) :=
  match symbolOf (topics[1]?.bind displayOf), displayOf data with
  | some name, some (.text _ value) => setMetric metrics name value
  | _, _ => metrics

/-- The arguments of a call: the items of a vector, or one value alone. -/
def argsOf (data : ScVal) : List (Option ScDisplay) :=
  match displayOf data with
  | some (.vec items) => items.map some
  | none => []
  | some value => [some value]

/-- The node that an event opens. -/
def nodeOf (topics : List ScVal) (data : ScVal) (seq : Nat) : TraceCall where
  contract := contractOf (topics[1]?.bind displayOf)
  fn := (topics[2]?.bind fun topic => decodeScSymbol topic.b64).getD unknownName
  args := argsOf data
  result := none
  events := []
  calls := []
  seq

/-- One round of `walkDiagnostics`: the walk goes on, or ends where it stands. -/
def walkEvent (w : Walk) (raw : ContractEvent) : Except Walk Walk :=
  match raw.body with
  | .other _ => .ok w
  | .v0 topics data =>
    if raw.type = .contract then
      if maxItems ≤ w.raised then .error w
      else
        let w := { w with raised := w.raised + 1 }
        match eventOf raw w.seq with
        | some event => .ok { w.pushEvent event with seq := w.seq + 1 }
        | none => .ok w
    else if labelOf topics = some coreMetricsLabel then .ok { w with metrics := metricsWith w.metrics topics data }
    else if labelOf topics = some fnCallLabel then
      if maxItems ≤ w.nodes then .error w
      else .ok { w with nodes := w.nodes + 1, stack := nodeOf topics data w.seq :: w.stack, seq := w.seq + 1 }
    else if labelOf topics = some fnReturnLabel then .ok (w.closeFrame (unlessVoid (displayOf data)))
    else .ok w

/-- `walkDiagnostics`: the tree of calls of a stream of events. -/
def walkDiagnostics (stream : List ContractEvent) : DiagnosticWalk :=
  match stream.foldlM walkEvent Walk.start with
  | .ok w => w.result false
  | .error w => w.result true

/-! ## Storage and lifetimes -/

/-- `raw` of `flatEventsOf`: the raised events of the Soroban part, or of the operations. -/
def rawEventsOf : TransactionMeta → List ContractEvent
  | .other _ => []
  | .v3 _ _ _ sorobanMeta => (sorobanMeta.map SorobanMetaV3.events).getD []
  | .v4 _ operations _ _ _ _ => operations.flatMap OperationMetaV4.events

/-- `flatEventsOf`: the events without the calls that raised them. -/
def flatEventsOf (txMeta : TransactionMeta) : List TraceEvent :=
  (((rawEventsOf txMeta).take maxItems).mapIdx fun index event => eventOf event index).reduceOption

/-- `KeyCandidate`: a key seen in the meta, and what it is the key of. -/
structure KeyCandidate where
  bytes : Bytes
  contract : Option JsString
  entry : TtlEntryKind

/-- What is known of a lifetime: its value, and whether it was written or is a pre-image. -/
structure TtlValue where
  value : Nat
  written : Bool

/-- The variables of `walkChanges`. -/
structure ChangesWalk where
  stateChanges : List TraceStateChange
  ttlByHash : List (Text × TtlValue)
  keyCandidates : List KeyCandidate

namespace ChangesWalk

/-- `Map.set`: a key keeps its place. -/
def setTtl (ttls : List (Text × TtlValue)) (hash : Text) (ttl : TtlValue) : List (Text × TtlValue) :=
  if ttls.any fun t => t.1 = hash then ttls.map fun t => if t.1 = hash then (hash, ttl) else t else ttls ++ [(hash, ttl)]

/-- A lifetime that was not removed. The written value wins over a pre-image. -/
def pushTtl (w : ChangesWalk) (written : Bool) (keyHash : Bytes32) (liveUntilLedgerSeq : BitVec 32) : ChangesWalk :=
  let hash := hexText keyHash.bytes
  let known := w.ttlByHash.lookup hash
  if (known.all fun ttl => !ttl.written) && decide (w.ttlByHash.length < maxItems) then
    { w with ttlByHash := setTtl w.ttlByHash hash ⟨liveUntilLedgerSeq.toNat, written⟩ }
  else w

/-- A key that a lifetime may belong to. -/
def pushCandidate (w : ChangesWalk) (candidate : KeyCandidate) : ChangesWalk :=
  if w.keyCandidates.length < maxItems then { w with keyCandidates := w.keyCandidates ++ [candidate] } else w

/-- A storage row. -/
def pushStateChange (w : ChangesWalk) (change : TraceStateChange) : ChangesWalk :=
  if w.stateChanges.length < maxItems then { w with stateChanges := w.stateChanges ++ [change] } else w

/-- Contract data; a pre-image has no kind, and a removed key no value. -/
def pushContractData (w : ChangesWalk) (kind : Option StateChangeKind) (contract : ScAddress) (key : ScVal)
    (durability : Durability) (val : Option ScVal) : ChangesWalk :=
  let shownKey := displayOf key
  let owner := scAddressOf contract
  let entry :=
    match shownKey with
    | some (.named .ledgerKey) => TtlEntryKind.contractInstance
    | _ => TtlEntryKind.contractState
  let w := w.pushCandidate ⟨contractDataKey contract key durability, owner, entry⟩
  match kind with
  | none => w
  | some kind => w.pushStateChange ⟨kind, owner, durability, shownKey, val.bind displayOf⟩

/-- A value of an entry, created, updated, restored or a pre-image. -/
def pushData (w : ChangesWalk) (kind : Option StateChangeKind) : LedgerEntryData → ChangesWalk
  | .ttl keyHash liveUntilLedgerSeq => w.pushTtl kind.isSome keyHash liveUntilLedgerSeq
  | .contractData contract key durability val => w.pushContractData kind contract key durability (some val)
  | .contractCode hash => w.pushCandidate ⟨contractCodeKey hash, none, .contractCode⟩
  | .other => w

/-- One change. -/
def pushChange (w : ChangesWalk) : LedgerEntryChange → ChangesWalk
  | .created data => w.pushData (some .created) data
  | .updated data => w.pushData (some .updated) data
  | .restored data => w.pushData (some .restored) data
  | .state data => w.pushData none data
  | .removed (.contractData contract key durability) => w.pushContractData (some .removed) contract key durability none
  | .removed (.contractCode hash) => w.pushCandidate ⟨contractCodeKey hash, none, .contractCode⟩
  | .removed _ => w

/-- `ttlExtensions` of the walk. -/
def ttlExtensions (w : ChangesWalk) : List TraceTtl := w.ttlByHash.map fun t => ⟨t.1, t.2.value, none, none⟩

end ChangesWalk

/-- `walkChanges`. -/
def walkChanges (changes : List LedgerEntryChange) : ChangesWalk := changes.foldl ChangesWalk.pushChange ⟨[], [], []⟩

/-- `resolveTtlOwners`: a lifetime names its key by hash, and belongs to the last key of the meta that has it. The digest may be
missing, or fail. -/
def resolveTtlOwners (digest : Option (Bytes → Option Bytes)) (ttlExtensions : List TraceTtl)
    (keyCandidates : List KeyCandidate) : List TraceTtl :=
  match digest with
  | none => ttlExtensions
  | some digest =>
    match keyCandidates.mapM fun candidate => (digest candidate.bytes).map fun hash => (hexText hash, candidate) with
    | none => ttlExtensions
    | some byHash =>
      ttlExtensions.map fun ttl =>
        match byHash.reverse.lookup ttl.keyHash with
        | some candidate => { ttl with contract := candidate.contract, entry := some candidate.entry }
        | none => ttl

/-- `changesOf`. -/
def changesOf : TransactionMeta → List LedgerEntryChange
  | .other _ => []
  | .v3 _ operations _ _ => operations.flatten
  | .v4 _ operations _ _ _ _ => operations.flatMap OperationMetaV4.changes

/-! ## The authorization data -/

/-- `callOf`. -/
def callOf (invocation : InvokeContractArgs) (seq : Nat) : TraceCall where
  contract := scAddressOf invocation.contractAddress
  fn := (decodeScSymbol (ScVal.b64 (.symbol invocation.functionName))).getD unknownName
  args := invocation.args.map displayOf
  result := none
  events := []
  calls := []
  seq

/-- `MAX_AUTH_DEPTH`. -/
def maxAuthDepth : Nat := 8

/-- The node of an authorized function, without its calls. -/
def authNode (function : AuthorizedFunction) (depth : Nat) : TraceCall :=
  match function with
  | .contractFn call => callOf call depth
  | .createContract =>
    { contract := none, fn := js ['c', 'r', 'e', 'a', 't', 'e', '_', 'c', 'o', 'n', 't', 'r', 'a', 'c', 't'], args := [],
      result := none, events := [], calls := [], seq := depth }

mutual

/-- `fromAuthInvocation`: the tree of an invocation, cut below the greatest depth. -/
def fromAuthInvocation (depth : Nat) : AuthorizedInvocation → Option TraceCall
  | .mk function subInvocations =>
    if maxAuthDepth < depth then none
    else some { authNode function depth with calls := fromSubInvocations (depth + 1) 0 subInvocations }

/-- The trees of the sub-invocations from an index on, each numbered with its index. -/
def fromSubInvocations (depth index : Nat) : List AuthorizedInvocation → List TraceCall
  | [] => []
  | sub :: subs =>
    match fromAuthInvocation depth sub with
    | some child => { child with seq := index } :: fromSubInvocations depth (index + 1) subs
    | none => fromSubInvocations depth (index + 1) subs

end

/-- `innerTransaction`: the operations of the transaction that is applied. An envelope of version 0 predates contracts. -/
def innerOperations : TransactionEnvelope → Option (List OperationBody)
  | .v0 => none
  | .v1 operations => some operations
  | .feeBump operations => some operations

/-- What one authorization entry adds to the host call. An entry whose root repeats the host call adds only its children. -/
def authCalls (root : TraceCall) : AuthorizedInvocation → List TraceCall
  | .mk function subInvocations =>
    let repeats :=
      match function with
      | .contractFn call => decide ((callOf call 0).contract = root.contract) && decide ((callOf call 0).fn = root.fn)
      | .createContract => false
    if repeats then subInvocations.filterMap (fromAuthInvocation 1)
    else (fromAuthInvocation 0 (.mk function subInvocations)).toList

/-- The tree of one operation, if it calls a contract. -/
def operationCall : OperationBody → Option TraceCall
  | .invokeHostFunction (.invokeContract call) auth =>
    let root := callOf call 0
    some { root with calls := auth.flatMap (authCalls root) }
  | _ => none

/-- `walkEnvelope`. -/
def walkEnvelope (envelope : TransactionEnvelope) : List TraceCall :=
  ((innerOperations envelope).getD []).filterMap operationCall

/-! ## The trace -/

/-- What the trace takes from its environment: the decoders of the Stellar library, and the digest of the browser, which an
insecure context does not have. -/
structure TraceContext where
  metaFromXdr : Text → Option TransactionMeta
  envelopeFromXdr : Text → Option TransactionEnvelope
  digest : Option (Bytes → Option Bytes)

/-- The diagnostic events of a meta. -/
def streamOf : TransactionMeta → List ContractEvent
  | .other _ => []
  | .v3 _ _ _ sorobanMeta => (sorobanMeta.map SorobanMetaV3.diagnosticEvents).getD []
  | .v4 _ _ _ _ _ diagnosticEvents => diagnosticEvents

/-- The fees of a meta. -/
def feesOf (txMeta : TransactionMeta) : Option TraceFees :=
  let ext :=
    match txMeta with
    | .other _ => none
    | .v3 _ _ _ sorobanMeta => sorobanMeta.bind SorobanMetaV3.ext
    | .v4 _ _ _ sorobanMeta _ _ => sorobanMeta.bind SorobanMetaV4.ext
  ext.map fun v1 =>
    { nonRefundable := intDecimal v1.totalNonRefundableResourceFeeCharged.toInt
      refundable := intDecimal v1.totalRefundableResourceFeeCharged.toInt, rent := intDecimal v1.rentFeeCharged.toInt }

/-- The trace before anything is known. -/
def emptyTrace : TxTrace where
  source := .diagnostics
  calls := []
  events := []
  stateChanges := []
  ttlExtensions := []
  metrics := []
  fees := none
  truncated := false

/-- The part of the trace that the meta yields. -/
def metaTrace (digest : Option (Bytes → Option Bytes)) : TransactionMeta → TxTrace
  | .other _ => emptyTrace
  | txMeta =>
    let walk := walkDiagnostics (streamOf txMeta)
    let changes := walkChanges (changesOf txMeta)
    { source := .diagnostics
      calls := walk.calls
      events := if walk.calls.isEmpty && walk.events.isEmpty then flatEventsOf txMeta else walk.events
      stateChanges := changes.stateChanges
      ttlExtensions := resolveTtlOwners digest changes.ttlExtensions changes.keyCandidates
      metrics := walk.metrics
      fees := feesOf txMeta
      truncated := walk.truncated }

/-- The trace with the tree of the authorization data, if it has no other. -/
def withAuth (trace : TxTrace) : Option TransactionEnvelope → TxTrace
  | none => trace
  | some envelope =>
    if trace.calls.isEmpty && !(walkEnvelope envelope).isEmpty then
      { trace with calls := walkEnvelope envelope, source := .auth }
    else trace

/-- No source yielded anything. -/
def TxTrace.isEmpty (trace : TxTrace) : Bool :=
  trace.calls.isEmpty && trace.events.isEmpty && trace.stateChanges.isEmpty && trace.ttlExtensions.isEmpty &&
    trace.metrics.isEmpty && trace.fees.isNone

/-- `decodeTrace`. A text that is missing or that the library does not decode yields nothing. -/
def decodeTrace (context : TraceContext) (resultMetaXdr envelopeXdr : Option Text) : Option TxTrace :=
  let fromMeta :=
    match resultMetaXdr.bind context.metaFromXdr with
    | none => emptyTrace
    | some txMeta => metaTrace context.digest txMeta
  let trace := withAuth fromMeta (envelopeXdr.bind context.envelopeFromXdr)
  if trace.isEmpty then none else some trace

end Soroscan

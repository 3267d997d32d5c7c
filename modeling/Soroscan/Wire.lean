import Soroscan.Api
import Soroscan.Failover
import Soroscan.Lemmas.ArgsText
import Soroscan.Lib.FixedWidth
import Soroscan.Lib.FormUrl
import Soroscan.Lib.JsonDouble

/-!
# Wire

What goes between the client and the indexer about a contract's history: the query of a request, as `client.ts` writes it and
`api.go` reads it, and the body of an answer, as `api.go` writes it and `client.ts` reads it.

`formatTime` is `time.Time.MarshalJSON` without its quotes, which fails outside of the years it can write. The client reads a body with
`response.json()`, whose numbers are those of double precision.
-/

namespace Soroscan

namespace Wire

/-! ## The query of a request -/

/-- `INDEXER_PAGE`. -/
def indexerPage : Nat := 20

/-- `TransactionsQuery`. -/
structure TransactionsQuery where
  cursor : Option Text
  functionName : Option Text
  «from» : Option Text
  «to» : Option Text
  deriving DecidableEq

/-- The status and the body of an answer. -/
structure HttpReply where
  status : Nat
  body : Text
  deriving DecidableEq, Repr

/-- A name of an object. -/
def key (name : String) : Text := name.toList

section

variable (formatTime : Time → Option Text)

/-- `writeJSON`. Nothing is written of what cannot be encoded, and the status is sent all the same. -/
def writeJSON (text : Option Text) : HttpReply :=
  match text with
  | some text => ⟨200, text ++ ['\n']⟩
  | none => ⟨200, []⟩

/-- `writeError`. -/
def writeError (e : ApiError) : HttpReply :=
  ⟨e.status, Json.objectText [(key "error", Json.quote e.message.toList)] ++ ['\n']⟩

end

/-! ## The client -/

/-- The attempt at a provider that gives this answer: `response.json()` reads its body, or fails. -/
def HttpReply.attempt (r : HttpReply) : Failover.Attempt JsValue Unit :=
  .responded r.status none
    (match Json.parseWhole r.body with
      | some body => .ok body.toJs
      | none => .error ())

/-- `IndexedTransaction`. -/
structure IndexedTransaction where
  txHash : Text
  ledger : JsNumber
  closedAt : Text
  functionName : Text
  args : Option JsValue
  feeCharged : Text

/-- `IndexedTransactionsPage`. -/
structure IndexedTransactionsPage where
  transactions : List IndexedTransaction
  nextCursor : Option Text

/-- What `fetchContractTransactions` throws: an `UpstreamError`, or the error of a field of `null`. -/
inductive ClientError where
  | upstream (message : Text) (status : Option Nat)
  | typeError
  deriving DecidableEq, Repr

/-- A field that is a string. -/
def stringField (name : String) (v : JsValue) : Option Text :=
  match v.field (key name) with
  | some (.str s) => some s
  | _ => none

/-- A field that is a number. -/
def numberField (name : String) (v : JsValue) : Option JsNumber :=
  match v.field (key name) with
  | some (.num n) => some n
  | _ => none

/-- One entry of a page. -/
def readEntry (entry : JsValue) : Except ClientError IndexedTransaction :=
  match entry with
  | .null => .error .typeError
  | entry =>
    match stringField "tx_hash" entry, numberField "ledger" entry, stringField "closed_at" entry, stringField "function" entry,
      stringField "fee_charged" entry with
    | some txHash, some ledger, some closedAt, some functionName, some feeCharged =>
      .ok { txHash, ledger, closedAt, functionName, args := entry.field (key "args"), feeCharged }
    | _, _, _, _, _ => .error (.upstream "indexer: malformed entry".toList none)

/-- The rest of `fetchContractTransactions`, once an answer was accepted. -/
def readPage (r : Failover.JsonFetchResult JsValue) : Except ClientError IndexedTransactionsPage :=
  if !r.ok then
    .error (.upstream ((stringField "error" r.body).getD ("indexer responded ".toList ++ decimal r.status)) (some r.status))
  else
    match r.body.field (key "transactions") with
    | some (.arr entries) =>
      (entries.mapM readEntry).map fun transactions => { transactions, nextCursor := stringField "next_cursor" r.body }
    | _ => .error (.upstream "indexer: malformed response body".toList none)

/-- What a client makes of an answer, or nothing if its provider is given up. -/
def HttpReply.fetched (r : HttpReply) : Option (Except ClientError IndexedTransactionsPage) := r.attempt.accepted.map readPage

section

variable (parseTime : Text → Option Instant) (formatTime : Time → Option Text)

end

end Wire

end Soroscan

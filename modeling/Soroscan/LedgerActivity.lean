import Soroscan.Lib.Paged
import Soroscan.Lib.Text

/-!
# The operations of a ledger

`queries.ts` and `history.ts`: all operations of one ledger, loaded page by page and grouped by the transaction they came from.
Only the token and the transaction of an operation are looked at; the rest of its record is carried along.
-/

namespace Soroscan

/-- `OperationRecord`: an operation, with the fields that are read here and the others. -/
structure OperationRecord (Token Detail : Type) where
  pagingToken : Token
  transactionHash : Text
  detail : Detail
  deriving DecidableEq, Repr

/-- `HistoryEntry`: the operations of one transaction, in the order Horizon returned them. -/
structure HistoryEntry (Token Detail : Type) where
  hash : Text
  lastToken : Token
  operations : List (OperationRecord Token Detail)
  deriving DecidableEq, Repr

/-- `LedgerActivity`: one entry for each transaction, the number of operations, and whether the load was cut off. -/
structure LedgerActivity (Token Detail : Type) where
  entries : List (HistoryEntry Token Detail)
  opCount : Nat
  truncated : Bool
  deriving DecidableEq, Repr

/-- `LEDGER_OPS_PAGE`. -/
def ledgerOpsPage : Nat := 200

/-- `LEDGER_OPS_MAX_PAGES`: the cap only guards against a pathological set. -/
def ledgerOpsMaxPages : Nat := 8

section

variable {Token Detail ε : Type}

/-- One round of `groupByTransaction`: the record joins the last entry, or opens one. -/
def groupRecord (entries : List (HistoryEntry Token Detail)) (record : OperationRecord Token Detail) :
    List (HistoryEntry Token Detail) :=
  match entries.getLast? with
  | some current =>
    if current.hash = record.transactionHash then
      entries.dropLast ++ [{ current with operations := current.operations ++ [record], lastToken := record.pagingToken }]
    else entries ++ [⟨record.transactionHash, record.pagingToken, [record]⟩]
  | none => entries ++ [⟨record.transactionHash, record.pagingToken, [record]⟩]

/-- `groupByTransaction`: a run of the same hash is one transaction. -/
def groupByTransaction (records : List (OperationRecord Token Detail)) : List (HistoryEntry Token Detail) :=
  records.foldl groupRecord []

/-- What the loop over the pages has loaded so far. -/
structure LedgerLoad (Token Detail : Type) where
  records : List (OperationRecord Token Detail)
  cursor : Option Token
  truncated : Bool
  deriving DecidableEq, Repr

variable (fetchLedgerOperations : Nat → Option Token → Except ε (List (OperationRecord Token Detail)))

/-- The loop of `ledgerOperationsQuery`. The first argument counts down the pages that may still be asked for: it is zero after
the last one. -/
def loadPages : Nat → LedgerLoad Token Detail → Except ε (LedgerLoad Token Detail)
  | 0, load => return load
  | left + 1, load => do
    let batch ← fetchLedgerOperations ledgerOpsPage load.cursor
    let records := load.records ++ batch
    if batch.length < ledgerOpsPage then return { load with records := records }
    loadPages left ⟨records, records.getLast?.map OperationRecord.pagingToken, decide (left = 0)⟩

/-- `ledgerOperationsQuery`. -/
def ledgerOperationsQuery : Except ε (LedgerActivity Token Detail) := do
  let load ← loadPages fetchLedgerOperations ledgerOpsMaxPages ⟨[], none, false⟩
  return ⟨groupByTransaction load.records, load.records.length, load.truncated⟩

end

/-! ## Horizon -/

/-- A closed ledger: its operations ascend by their tokens, and those of one transaction are adjacent. -/
structure ClosedLedger (Token Detail : Type) [LinearOrder Token] where
  operations : List (OperationRecord Token Detail)
  ascending : Ascending OperationRecord.pagingToken operations
  adjacent : Contiguous OperationRecord.transactionHash operations

/-- Horizon's answer: the next operations behind the cursor, at most as many as asked for. -/
def ClosedLedger.page {Token Detail : Type} [LinearOrder Token] (ledger : ClosedLedger Token Detail) (limit : Nat)
    (cursor : Option Token) : List (OperationRecord Token Detail) :=
  (behind OperationRecord.pagingToken cursor ledger.operations).take limit

end Soroscan

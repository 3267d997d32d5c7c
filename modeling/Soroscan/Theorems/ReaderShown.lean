import Soroscan.Theorems.ReaderPages
import Soroscan.Theorems.WireWalk

/-!
# What a reader of a contract's invocations is shown

Every page that the list of a contract's invocations is answered with is a slice of the archive, at whatever moment and by whatever
plan it is answered. So the pages that lead to the one on the screen tile the archive, whatever the reader clicked before, with
whatever filters, and whatever followers and backfills saved meanwhile. What is drawn of a page are the transactions whose operations
were loaded with it; the others are left out.
-/

namespace Soroscan

namespace CursorPages

section

variable (scValString : ScVal → Bytes) (archive : BitVec 32 → LedgerCloseMeta)

end

/-- A cursor that is accepted with a filter: that of a scan belongs to a function, and has the zero hash. -/
def Accepted (filter : TransactionFilter) (cursor : Option Text) : Prop :=
  ∀ token ∈ cursor, ∃ c continueScan, parseCursor token = some (c, continueScan) ∧
    (continueScan = true → filter.function ≠ [] ∧ c.txHash = Bytes32.zero)

section

variable {scValString : ScVal → Bytes} {acceptsTime : Time → Bool} {archive : BitVec 32 → LedgerCloseMeta}

/-! ## One answer -/

section

variable {w : World} {raw : Bytes32} {filter : TransactionFilter}

end

/-! ## One page of a reader -/

section

variable {parseTime : Text → Option Instant} {formatTime : Time → Option Text}

/-- The ledger that a number names. -/
def ledgerOf : JsNumber → Nat
  | .finite x => x.num.toNat
  | .infinite _ => 0

/-- Where a transaction of a page stands. -/
def indexedPosition (t : Wire.IndexedTransaction) : Position :=
  toLex (ledgerOf t.ledger,
    match readHex t.txHash with
    | some bytes => if h : bytes.length = 32 then ⟨bytes, h⟩ else Bytes32.zero
    | none => Bytes32.zero)

/-- A transaction that shows an invocation, over an answer's row. -/
def IndexedPresents (formatTime : Time → Option Text) (t : Wire.IndexedTransaction) (inv : Invocation) : Prop :=
  ∃ o, Wire.EntryShows formatTime o t ∧ Presents o inv

theorem IndexedPresents.txHash {t : Wire.IndexedTransaction} {inv : Invocation} (h : IndexedPresents formatTime t inv) :
    t.txHash = hexText inv.txHash.bytes := by
  obtain ⟨o, hshows, hpresents⟩ := h
  exact hshows.txHash.trans (congrArg TransactionOut.txHash hpresents.rest)

theorem IndexedPresents.position {t : Wire.IndexedTransaction} {inv : Invocation} (h : IndexedPresents formatTime t inv) :
    indexedPosition t = inv.position := by
  have htxHash := h.txHash
  obtain ⟨o, hshows, hpresents⟩ := h
  have hledger : o.ledger = inv.ledger := congrArg TransactionOut.ledger hpresents.rest
  rw [indexedPosition, hshows.ledger, ledgerOf, htxHash, readHex_hexText, hledger]
  simp only [dif_pos inv.txHash.length_eq, Rat.num_natCast, Int.toNat_natCast]
  rfl

variable {ws : Nat → World} {attempts : Nat → Attempt} {contractID : Text} {raw : Bytes32} {Token Detail : Type}
  {fetchTransactionOperations : Nat → Text → Option (List (OperationRecord Token Detail))}

end

end

end CursorPages

end Soroscan

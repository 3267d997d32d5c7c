import Mathlib.Data.Finset.Sort
import Soroscan.Lib.Collect
import Soroscan.Lib.Text
import Soroscan.Store

/-!
# The verifier's sample

`cmd/verify`: the ledgers that are read again from the archive, random ones of the indexed span and every boundary of a backfill. The
numbers of ledgers are 32-bit ones, held as natural numbers.

Then what is found there is counted against the database. What the archive delivers for a ledger, and the state of the database that
answers each count, are parameters; the sixteen workers write to a place of their own each, so that their order is no part of it.
-/

namespace Soroscan

namespace Verify

/-- `protocol20`: the first ledger with contracts. -/
def protocol20 : Nat := 50457424

/-! ## Names of backfills -/

/-- The white space of `Sscanf`. -/
def isScanSpace (c : Char) : Bool :=
  let n := c.toNat
  (9 ≤ n && n ≤ 13) || n == 0x20 || n == 0x85 || n == 0xA0 || n == 0x1680 || (0x2000 ≤ n && n ≤ 0x200A) || n == 0x2028 || n == 0x2029 ||
    n == 0x202F || n == 0x205F || n == 0x3000

/-- `SkipSpace` of `Sscanf`, for which a new line is an error. -/
def skipSpace (t : Text) : Option Text :=
  let rest := t.dropWhile fun c => isScanSpace c && c != '\n'
  if rest.head? = some '\n' then none else some rest

/-- `%d` into a `uint32`, and what stands behind it. -/
def scanUint32 (t : Text) : Option (Nat × Text) :=
  (skipSpace t).bind fun rest =>
    (readDecimal (rest.takeWhile Char.isDigit)).bind fun n =>
      if n < 2 ^ 32 then some (n, rest.dropWhile Char.isDigit) else none

/-- Characters of the format must be there as they are. -/
def scanLiteral (literal t : Text) : Option Text := if literal.isPrefixOf t then some (t.drop literal.length) else none

/-- `Sscanf(name, "backfill:%d-%d", &start, &end)`. What stands behind the end does not matter. -/
def scanRange (name : Text) : Option (Nat × Nat) :=
  (scanLiteral "backfill:".toList name).bind fun rest =>
    (scanUint32 rest).bind fun (start, rest) =>
      (scanLiteral "-".toList rest).bind fun rest => (scanUint32 rest).map fun (stop, _) => (start, stop)

/-! ## The sample -/

/-- The boundaries of the backfills that are within the span. -/
def boundaries (names : List Text) (tip : Nat) : Finset Nat :=
  ((names.filterMap scanRange).flatMap fun (start, stop) => [start, stop].filter fun b => protocol20 ≤ b ∧ b ≤ tip).toFinset

/-- The number of ledgers that are indexed. -/
def span (tip : Nat) : Int := tip - protocol20 + 1

/-- `pick`: of the names the query returned, and of the numbers that `Int63n(span)` draws one after the other. With less fuel than the
loop takes there is no result. -/
def pick (fuel : Nat) (names : List Text) (sample : Int) (draws : Nat → Nat) (tip : Nat) : Option (List Nat) :=
  (collect (fun i => (protocol20 + draws i) % 2 ^ 32) sample fuel 0 (boundaries names tip)).map fun seen => seen.sort

/-! ## The checks -/

/-- The first words of what `fetchOne` reports. -/
inductive CheckError where
  | fetch
  | extract
  deriving DecidableEq, Repr

/-- `check`: what the archive holds for a ledger, or why it is not known. -/
structure Check where
  ledger : BitVec 32
  closedAt : Time
  want : Nat
  err : Option CheckError

/-- `fetchOne`. -/
def fetchOne (scValString : ScVal → Bytes) (fetchLedger : BitVec 32 → Option LedgerCloseMeta) (seq : BitVec 32) : Check :=
  match fetchLedger seq with
  | none => { ledger := seq, closedAt := 0, want := 0, err := some .fetch }
  | some m =>
    match extract scValString m with
    | none => { ledger := seq, closedAt := 0, want := 0, err := some .extract }
    | some result => { ledger := seq, closedAt := result.closedAt, want := result.invocations.length, err := none }

/-- `interval '5 minutes'`, in microseconds. -/
def fiveMinutes : Time := 300000000

/-- The count of the rows of a ledger that closed within five minutes of a time. -/
def countNear (db : Db) (ledger : BitVec 32) (closedAt : Time) : Nat :=
  (db.transactions.filter fun r =>
    r.ledger = ledger.toNat ∧ closedAt - fiveMinutes ≤ r.ledgerClosedAt ∧ r.ledgerClosedAt ≤ closedAt + fiveMinutes).length

/-- Why `run` gives no verdict. -/
inductive RunError where
  | readTip
  | countLedger (seq : BitVec 32)
  deriving DecidableEq, Repr

/-- The loop of `run` over the checks: so many mismatches. The count of the check at place `i` is answered by the state `dbs i` of the
database; without one, the query has failed. -/
def mismatches (dbs : Nat → Option Db) : Nat → List Check → Except RunError Nat
  | _, [] => .ok 0
  | i, c :: checks =>
    if c.err.isSome then (mismatches dbs (i + 1) checks).map (· + 1)
    else
      match dbs i with
      | none => .error (.countLedger c.ledger)
      | some db =>
        if countNear db c.ledger c.closedAt = c.want then mismatches dbs (i + 1) checks
        else (mismatches dbs (i + 1) checks).map (· + 1)

/-- What `run` prints at its end. -/
inductive Verdict where
  | ok (ledgers : Nat)
  | mismatched (mismatches ledgers : Nat)
  deriving DecidableEq, Repr

/-- `run`, over the state in which the checkpoint of the worker is read. With less fuel than the draws take there is no result. -/
def run (scValString : ScVal → Bytes) (fetchLedger : BitVec 32 → Option LedgerCloseMeta) (fuel : Nat) (names : List Text)
    (sample : Int) (draws : Nat → Nat) (first : Db) (dbs : Nat → Option Db) : Option (Except RunError Verdict) :=
  match first.checkpoints worker with
  | none => some (.error .readTip)
  | some tip =>
    (pick fuel names sample draws (uint32 tip).toNat).map fun ledgers =>
      (mismatches dbs 0 (ledgers.map fun q => fetchOne scValString fetchLedger (uint32 q))).map fun n =>
        if 0 < n then .mismatched n ledgers.length else .ok ledgers.length

end Verify

end Soroscan

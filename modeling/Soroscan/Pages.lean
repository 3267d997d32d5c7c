import Soroscan.Store
import Soroscan.Lib.Descending
import Mathlib.Data.Prod.Lex

/-!
# Pages

The reading half of `store.go`: one page of a contract's history. `pageByLedgers` is the streaming plan, `pageByWindows` the
windowed scan that takes over from it for a rare function. A query is answered from one state of the database.

A query result is a list of rows in the order the statement asks for. The text the database gives a `jsonb` value is taken to
be the one `Json.marshal` prints.
-/

namespace Soroscan

/-- A point in time as a request carries it, in nanoseconds from the zero value of the clock. -/
abbrev Instant : Type := Int

/-- The zero value of an instant, which stands for no time. -/
def Instant.isZero (t : Instant) : Bool := t = 0

/-- The microsecond an instant is in: what a statement gets of it. -/
def Instant.micros (t : Instant) : Time := t / 1000

/-- `Cursor`: the row a page begins below. -/
structure Cursor where
  ledger : BitVec 32
  txHash : Bytes32
  deriving DecidableEq, Repr

/-- `TransactionFilter`. The empty function name and a zero time leave their side open. -/
structure TransactionFilter where
  function : Bytes
  «from» : Instant
  «to» : Instant
  continueScan : Bool
  deriving DecidableEq, Repr

/-- `Transaction`: one stored invocation, its ids resolved. -/
structure Transaction where
  txHash : Bytes32
  ledger : BitVec 32
  closedAt : Time
  function : Bytes
  argsJSON : Option Text
  feeCharged : Int
  deriving Repr

/-- `Page`: the rows of a page, and the ledger a scan that ran out of budget goes on below, or 0. -/
structure Page where
  transactions : List Transaction
  continueLedger : BitVec 32
  deriving Repr

/-- `scanWindowLedgers`. -/
def scanWindowLedgers : Int := 30000

/-- `scanWindowsPerPage`. -/
def scanWindowsPerPage : Nat := 4

/-- `math.MaxInt64`: every real ledger is below this. -/
def maxInt64 : Nat := 2 ^ 63 - 1

/-! ## Statements -/

/-- What the rows of a contract are ordered by: the ledger, then the transaction hash. -/
abbrev Position : Type := Nat ×ₗ Bytes32

/-- The position of a row. -/
def TxRow.position (r : TxRow) : Position := toLex (r.ledger, r.txHash)

/-- `filterPredicates`: the optional function and time conditions. -/
def filterPredicates (functionID : Option Nat) (filter : TransactionFilter) (r : TxRow) : Bool :=
  (match functionID with
    | some id => r.function = id
    | none => true) &&
  (filter.from.isZero || filter.from.micros ≤ r.ledgerClosedAt) && (filter.to.isZero || r.ledgerClosedAt ≤ filter.to.micros)

section Query

variable (db : Db) (contractID : Nat) (functionID : Option Nat) (filter : TransactionFilter)

/-- The rows of a contract that meet the filter's conditions. -/
def matchingRows : List TxRow := db.transactions.filter fun r => r.contractId = contractID && filterPredicates functionID filter r

/-- The rows a page statement selects with one more condition, in the order of the statement. -/
def selectRows (cond : TxRow → Bool) : List TxRow :=
  descending TxRow.position ((matchingRows db contractID functionID filter).filter cond)

/-- A row as `appendTransactions` scans it, its arguments still as they are stored. A row without a known function is left out
by the join. -/
def scanRow (r : TxRow) : Option (Transaction × Option Json) :=
  (db.dicts.functions.keyOf r.function).map fun name =>
    ({ txHash := r.txHash, ledger := uint32 r.ledger, closedAt := r.ledgerClosedAt, function := name, argsJSON := none,
       feeCharged := r.feeCharged }, r.args)

/-- The rows `appendTransactions` appends for a statement with a limit. -/
def scanRows (limit : Nat) (cond : TxRow → Bool) : List (Transaction × Option Json) :=
  ((selectRows db contractID functionID filter cond).filterMap (scanRow db)).take limit

/-- `recentLedgers`: the newest matching ledgers below the bound, each once. -/
def recentLedgers (below max : Nat) : List Nat :=
  topGroups TxRow.ledger max ((matchingRows db contractID functionID filter).filter fun r => r.ledger < below)

/-- `scanCeiling`: the newest ledger of the contract, or of its time bound, or 0. -/
def scanCeiling («to» : Instant) : Nat :=
  (((db.transactions.filter fun r =>
    r.contractId = contractID && («to».isZero || r.ledgerClosedAt ≤ «to».micros)).map TxRow.ledger).max?).getD 0

/-- `scanFloor`: the oldest ledger of the contract, or of its time bound, or 0. -/
def scanFloor («from» : Instant) : Nat :=
  (((db.transactions.filter fun r =>
    r.contractId = contractID && (from.isZero || from.micros ≤ r.ledgerClosedAt)).map TxRow.ledger).min?).getD 0

/-! ## Arguments -/

/-- The address of an id, for the ids that are asked for. -/
def addressOf (id : BitVec 32) : Option Text :=
  if id.toInt < 0 then none else db.dicts.argAddresses.keyOf id.toNat

/-- The arguments of a row, read from their stored text. -/
def parseRaw : Option Json → Option (Option Json)
  | none => some none
  | some raw => (parseArgs (Json.marshal raw)).map some

/-- A row whose arguments have their addresses back. `null` arguments are left as no arguments. -/
def expandRow (t : Transaction) : Option Json → Transaction
  | none => t
  | some .null => t
  | some v => { t with argsJSON := some (Json.marshal (resolvePlaceholders (addressOf db) v)) }

/-- `expandArgs`: the stored placeholders are turned back into addresses. Without a placeholder in the page every row keeps its
stored text. -/
def expandArgs (out : List (Transaction × Option Json)) : Option (List Transaction) :=
  (out.mapM fun row => parseRaw row.2).map fun parsed =>
    if parsed.flatMap (fun v => (v.map collectPlaceholderIDs).getD []) = [] then
      out.map fun row => { row.1 with argsJSON := row.2.map Json.marshal }
    else List.zipWith (expandRow db) (out.map (·.1)) parsed

/-! ## The two plans -/

/-- `pageByLedgers`: the rest of the cursor's own ledger first, then whole ledgers below it. -/
def pageByLedgers (before : Option Cursor) (limit : Nat) : Option (List Transaction) :=
  let out := match before with
    | some c => scanRows db contractID functionID filter limit fun r => r.ledger = c.ledger.toNat && r.txHash < c.txHash
    | none => []
  let boundLedger := match before with
    | some c => c.ledger.toNat
    | none => maxInt64
  let remaining := limit - out.length
  if 0 < remaining then
    let ledgers := recentLedgers db contractID functionID filter boundLedger remaining
    if ledgers = [] then expandArgs db out
    else
      let rows := (selectRows db contractID functionID filter fun r => r.ledger ∈ ledgers).filterMap (scanRow db)
      expandArgs db ((out ++ rows).take limit)
  else expandArgs db out

/-- The row bound of a window: the row is below the cursor, seen from the cursor's own ledger. -/
def withinBound (rowBound : Option Cursor) (r : TxRow) : Bool :=
  match rowBound with
  | some c => r.ledger < c.ledger.toNat || r.txHash < c.txHash
  | none => true

/-- One window of the scan: the rows from `lo` on and below `hi` that are within the row bound. -/
def inWindow (lo hi : Int) (rowBound : Option Cursor) (r : TxRow) : Bool :=
  lo ≤ r.ledger && r.ledger < hi && withinBound rowBound r

/-- The loop of `pageByWindows`, with the windows that are left: the rows and the ledger it ends at. The row bound holds in the
first window alone. -/
def scanWindows (floor : Int) (limit : Nat) :
    Nat → Option Cursor → Int → List (Transaction × Option Json) → List (Transaction × Option Json) × Int
  | 0, _, hi, out => (out, hi)
  | windows + 1, rowBound, hi, out =>
    if floor < hi ∧ out.length ≤ limit then
      let lo := max (hi - scanWindowLedgers) floor
      scanWindows floor limit windows none lo
        (out ++ scanRows db contractID functionID filter (limit + 1 - out.length) (inWindow lo hi rowBound))
    else (out, hi)

/-- `pageByWindows` from the ledger it starts below. -/
def pageBelow (floor : Int) (rowBound : Option Cursor) (hi : Int) (limit : Nat) : Option Page :=
  let (out, hi) := scanWindows db contractID functionID filter floor limit scanWindowsPerPage rowBound hi []
  (expandArgs db out).map fun transactions =>
    { transactions, continueLedger := if out.length ≤ limit ∧ floor < hi then BitVec.ofInt 32 hi else 0 }

/-- `pageByWindows`: fixed ledger windows downward, from the cursor or from the newest row. -/
def pageByWindows (before : Option Cursor) (limit : Nat) : Option Page :=
  let floor := scanFloor db contractID filter.from
  if floor = 0 then some ⟨[], 0⟩
  else
    match before with
    | some c =>
      if filter.continueScan then pageBelow db contractID functionID filter floor none c.ledger.toNat limit
      else pageBelow db contractID functionID filter floor (some c) (c.ledger.toNat + 1) limit
    | none =>
      let ceiling := scanCeiling db contractID filter.to
      if ceiling = 0 then some ⟨[], 0⟩
      else pageBelow db contractID functionID filter floor none (ceiling + 1) limit

end Query

/-- Why a page is refused or fails. -/
inductive PageError where
  | invalidContract | storage
  deriving DecidableEq, Repr

/-- `TransactionsByContract`: one page, newest first. `fast` says whether a function-filtered page of the streaming plan meets
its deadline. -/
def transactionsByContract (fast : Bool) (db : Db) (contractStrkey : Text) (before : Option Cursor) (limit : Nat)
    (filter : TransactionFilter) : Except PageError Page :=
  match decodeStrkey contractStrkey strkeyVersionContract with
  | none => .error .invalidContract
  | some raw =>
    match db.dicts.contracts.idOf raw with
    | none => .ok ⟨[], 0⟩
    | some contractID =>
      if filter.function = [] then
        match pageByLedgers db contractID none filter before limit with
        | none => .error .storage
        | some transactions => .ok ⟨transactions, 0⟩
      else
        match db.dicts.functions.idOf filter.function with
        | none => .ok ⟨[], 0⟩
        | some functionID =>
          if !filter.continueScan && fast then
            match pageByLedgers db contractID (some functionID) filter before limit with
            | none => .error .storage
            | some transactions => .ok ⟨transactions, 0⟩
          else
            match pageByWindows db contractID (some functionID) filter before limit with
            | none => .error .storage
            | some page => .ok page

end Soroscan

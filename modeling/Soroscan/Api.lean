import Soroscan.Pages

/-!
# Api

`api.go`: the endpoint of a contract's history. `contractTransactions` checks the query parameters, asks the store for one row
more than the page holds, and names the row, or the ledger, the next page begins below.

The parameters arrive decoded from the URL; an absent one is empty. `parseTime` is `time.Parse` of an RFC 3339 text.
-/

namespace Soroscan

/-- `defaultLimit`. -/
def defaultLimit : Nat := 20

/-- `maxLimit`. -/
def maxLimit : Nat := 50

/-! ## Patterns -/

/-- `contractPattern`: `^C[A-Z2-7]{55}$`. -/
def contractPattern (s : Text) : Bool :=
  match s with
  | 'C' :: rest => rest.length = 55 && rest.all isBase32Char
  | _ => false

/-- A letter or the underscore. -/
def isNameStart (b : UInt8) : Bool := (65 ≤ b && b ≤ 90) || (97 ≤ b && b ≤ 122) || b = 95

/-- `functionPattern`: `^[A-Za-z_][A-Za-z0-9_]{0,63}$`. -/
def functionPattern (s : Bytes) : Bool :=
  match s with
  | c :: rest => isNameStart c && rest.length ≤ 63 && rest.all fun b => isNameStart b || (48 ≤ b && b ≤ 57)
  | [] => false

/-- The word a scan cursor begins with. -/
def scanPrefix : Text := ['s', 'c', 'a', 'n', '-']

/-- A digit of a lower-case hexadecimal number. -/
def isLowerHex (c : Char) : Bool := c.isDigit || ('a' ≤ c && c ≤ 'f')

/-- The parts of a cursor without its scan prefix: the digits, and the hash if there is one. -/
def cursorParts (s : Text) : Option (Text × Option Text) :=
  let digits := s.takeWhile Char.isDigit
  if 1 ≤ digits.length ∧ digits.length ≤ 10 then
    match s.dropWhile Char.isDigit with
    | [] => some (digits, none)
    | '-' :: hash => if hash.length = 64 ∧ hash.all isLowerHex = true then some (digits, some hash) else none
    | _ => none
  else none

/-- `cursorPattern`: `^(scan-)?([0-9]{1,10})(?:-([0-9a-f]{64}))?$`. -/
def cursorPattern (s : Text) : Option (Bool × Text × Option Text) :=
  if scanPrefix.isPrefixOf s then (cursorParts (s.drop scanPrefix.length)).map fun parts => (true, parts)
  else (cursorParts s).map fun parts => (false, parts)

/-! ## Cursors -/

/-- `parseCursor`: the cursor, and whether it resumes a scan. A bare ledger stands for its row with the zero hash. -/
def parseCursor (raw : Text) : Option (Cursor × Bool) :=
  match cursorPattern raw with
  | none => none
  | some (continueScan, digits, hash) =>
    if continueScan && hash.isSome then none
    else
      match readDecimal digits with
      | none => none
      | some ledger =>
        if 2 ^ 32 ≤ ledger ∨ ledger = 0 then none
        else
          match hash with
          | none => some (⟨uint32 ledger, Bytes32.zero⟩, continueScan)
          | some hash =>
            match readHex hash with
            | none => none
            | some decoded =>
              if h : decoded.length = 32 then some (⟨uint32 ledger, ⟨decoded, h⟩⟩, false) else none

/-- The cursor of a page's last row. -/
def rowCursor (ledger : BitVec 32) (txHash : Bytes32) : Text := decimal ledger.toNat ++ '-' :: hexText txHash.bytes

/-- The cursor of a scan that ran out of budget. -/
def scanCursor (ledger : BitVec 32) : Text := scanPrefix ++ decimal ledger.toNat

/-! ## The endpoint -/

/-- The parameters of a request. -/
structure Query where
  contractID : Text
  limit : Text
  function : Bytes
  «from» : Text
  «to» : Text
  cursor : Text

/-- What the surroundings decide about a request: whether the streaming plan meets its deadline, and whether the walk over the
two time parameters begins with `to`. -/
structure Attempt where
  fast : Bool
  toFirst : Bool

/-- `transactionOut`. -/
structure TransactionOut where
  txHash : Text
  ledger : BitVec 32
  closedAt : Time
  function : Bytes
  args : Text
  feeCharged : Text
  deriving DecidableEq, Repr

/-- The answer to a request. -/
structure Response where
  transactions : List TransactionOut
  nextCursor : Option Text
  deriving Repr

/-- `writeError`: the status of a refused request, and its message. -/
structure ApiError where
  status : Nat
  message : String
  deriving DecidableEq, Repr

def badRequest (message : String) : ApiError := ⟨400, message⟩

/-- `strconv.Atoi`. -/
def atoi (s : Text) : Option Int :=
  let digits := match s with
    | '-' :: rest => rest
    | '+' :: rest => rest
    | _ => s
  if digits ≠ [] ∧ digits.all Char.isDigit = true then
    let n : Int := Nat.ofDigitChars 10 digits 0
    let i := if s.head? = some '-' then -n else n
    if -(2 ^ 63) ≤ i ∧ i < 2 ^ 63 then some i else none
  else none

/-- `argsOrNull`. -/
def argsOrNull (raw : Option Text) : Text :=
  match raw with
  | none => ['n', 'u', 'l', 'l']
  | some [] => ['n', 'u', 'l', 'l']
  | some text => text

/-- A row of the answer. -/
def transactionOut (t : Transaction) : TransactionOut where
  txHash := hexText t.txHash.bytes
  ledger := t.ledger
  closedAt := t.closedAt
  function := t.function
  args := argsOrNull t.argsJSON
  feeCharged := intDecimal t.feeCharged

/-- The `limit` parameter. -/
def parseLimit (raw : Text) : Except ApiError Nat :=
  if raw = [] then .ok defaultLimit
  else
    match atoi raw with
    | none => .error (badRequest "limit must be between 1 and 50")
    | some parsed =>
      if parsed < 1 ∨ (maxLimit : Int) < parsed then .error (badRequest "limit must be between 1 and 50")
      else .ok parsed.toNat

section Handler

variable (parseTime : Text → Option Instant)

/-- One of the time parameters. -/
def parseBound (name : String) (raw : Text) : Except ApiError Instant :=
  if raw = [] then .ok 0
  else
    match parseTime raw with
    | none => .error (badRequest (name ++ " must be an RFC 3339 timestamp"))
    | some parsed => .ok parsed

/-- The time parameters, in the order the map is walked. -/
def parseBounds (toFirst : Bool) (q : Query) : Except ApiError (Instant × Instant) :=
  if toFirst then do
    let «to» ← parseBound parseTime "to" q.to
    let «from» ← parseBound parseTime "from" q.from
    return («from», «to»)
  else do
    let «from» ← parseBound parseTime "from" q.from
    let «to» ← parseBound parseTime "to" q.to
    return («from», «to»)

/-- The limit and the filter of a request, without its cursor. -/
def parseQuery (toFirst : Bool) (q : Query) : Except ApiError (Nat × TransactionFilter) := do
  if !contractPattern q.contractID then throw (badRequest "invalid contract address")
  let limit ← parseLimit q.limit
  if q.function ≠ [] ∧ functionPattern q.function = false then throw (badRequest "malformed function name")
  let bounds ← parseBounds parseTime toFirst q
  if !bounds.1.isZero && !bounds.2.isZero && decide (bounds.2 < bounds.1) then
    throw (badRequest "to must not be before from")
  return (limit, { function := q.function, «from» := bounds.1, «to» := bounds.2, continueScan := false })

/-- The cursor of a request, and the filter with it. -/
def withCursor (q : Query) (filter : TransactionFilter) : Except ApiError (Option Cursor × TransactionFilter) :=
  if q.cursor = [] then .ok (none, filter)
  else
    match parseCursor q.cursor with
    | none => .error (badRequest "malformed cursor")
    | some (cursor, continueScan) =>
      if continueScan && filter.function = [] then .error (badRequest "malformed cursor")
      else .ok (some cursor, { filter with continueScan })

/-- The cursor of the next page. -/
def nextCursorOf (more : Bool) (rows : List Transaction) (continueLedger : BitVec 32) : Option Text :=
  match more, rows.getLast? with
  | true, some last => some (rowCursor last.ledger last.txHash)
  | _, _ => if 0 < continueLedger then some (scanCursor continueLedger) else none

/-- A page of the store as an answer: at most `limit` rows, and the cursor of the next page. -/
def answer (limit : Nat) (page : Page) : Response :=
  let rows := page.transactions.take limit
  { transactions := rows.map transactionOut
    nextCursor := nextCursorOf (limit < page.transactions.length) rows page.continueLedger }

/-- `contractTransactions`. -/
def contractTransactions (attempt : Attempt) (db : Db) (q : Query) : Except ApiError Response := do
  let (limit, filter) ← parseQuery parseTime attempt.toFirst q
  let (cursor, filter) ← withCursor q filter
  -- one extra row answers whether another page exists
  match transactionsByContract attempt.fast db q.contractID cursor (limit + 1) filter with
  | .error .invalidContract => throw (badRequest "invalid contract address")
  | .error .storage => throw ⟨500, "internal error"⟩
  | .ok page => return answer limit page

end Handler

end Soroscan

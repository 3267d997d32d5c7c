import Soroscan.LedgerActivity
import Soroscan.Lib.Run
import Soroscan.Wire
import Mathlib.Logic.Function.Basic
import Mathlib.Data.List.Basic

/-!
# Pages behind cursors

`useCursorPages` of `use-cursor-pages.ts`, the `Pager` of `history-table.tsx`, and the lists that are drawn with them: a query for each
filter and cursor, kept in a cache, and the controls that lead from one page to another. A click, an answer that arrives, and an answer
that the cache gives up can come in any order.

What a page is answered with is a parameter.
-/

namespace Soroscan

namespace CursorPages

/-- A page that was answered: its rows and, as its `Pager` gets them, the number of its `records`, the token the next page is behind,
and whether there is a next page, where the provider says so. -/
structure PageData (τ ι : Type) where
  items : List ι
  records : Nat
  lastToken : Option τ
  more : Option Bool
  deriving DecidableEq, Repr

/-- How a list is drawn: the size of its pages, whether the page before stays on the screen while the next one is loading
(`placeholderData: keepPreviousData`), and whether an empty page has its controls. -/
structure ListKind where
  pageSize : Nat
  keepPrevious : Bool
  drawsEmpty : Bool

/-- `hasMore` of a `Pager`: without an explicit answer a full page is the only hint. -/
def hasMore {τ ι : Type} (pageSize : Nat) (page : PageData τ ι) : Bool :=
  page.more.getD (page.records = pageSize && page.lastToken.isSome)

/-- What the button for the next page moves behind. -/
def nextToken {τ ι : Type} (pageSize : Nat) (page : PageData τ ι) : Option τ :=
  if hasMore pageSize page then page.lastToken else none

/-- What names a query: the filter and the cursor. -/
abbrev Key (φ τ : Type) : Type := φ × Option τ

/-- A list on the screen: its filter, the cursors that were `visited`, the cached answers, the queries that failed, and the page that
was last drawn. Two things are recorded beside these: the visited cursors that were `inherited` from another list, and the `trail` of
what the reader has been shown since, for each later cursor the page that was left for it. -/
structure Reader (φ τ ι : Type) where
  filter : φ
  visited : List τ
  cache : Key φ τ → Option (PageData τ ι)
  failed : Key φ τ → Bool
  kept : Option (PageData τ ι)
  inherited : List τ
  trail : List (PageData τ ι)

/-- What happens: a click on one of the three buttons, a change of the filter or of the list itself, an answer that arrives or fails, a
query that is made again, or an answer that the cache gives up. -/
inductive Event (φ τ : Type) where
  | next
  | back
  | reset
  | filters (filter : φ)
  | switches (filter : φ)
  | arrives (key : Key φ τ) (moment : Nat)
  | fails (key : Key φ τ)
  | retries (key : Key φ τ)
  | evicts (key : Key φ τ)

namespace Reader

variable {φ τ ι : Type}

/-- A list that was just opened. -/
def opened (filter : φ) : Reader φ τ ι := ⟨filter, [], fun _ => none, fun _ => false, none, [], []⟩

/-- `cursor`: the cursor for the page on screen, and none on the first page. -/
def cursor (s : Reader φ τ ι) : Option τ := s.visited.getLast?

/-- The query of the page on screen. -/
def key (s : Reader φ τ ι) : Key φ τ := (s.filter, s.cursor)

/-- `atStart`. -/
def atStart (s : Reader φ τ ι) : Bool := s.visited.isEmpty

/-- The page that is on the screen, unless the query is pending or has failed. -/
def data (kind : ListKind) (s : Reader φ τ ι) : Option (PageData τ ι) :=
  if s.failed s.key then none else (s.cache s.key).or (if kind.keepPrevious then s.kept else none)

/-- The page that is on the screen with its controls. -/
def controls (kind : ListKind) (s : Reader φ τ ι) : Option (PageData τ ι) :=
  (s.data kind).filter fun page => kind.drawsEmpty || !page.items.isEmpty

/-- `isPlaceholderData`: what is drawn was answered to another query. -/
def isPlaceholderData (s : Reader φ τ ι) : Bool := (s.cache s.key).isNone

/-- The list drawn again. -/
def draw (s : Reader φ τ ι) : Reader φ τ ι := { s with kept := (s.cache s.key).or s.kept }

variable [DecidableEq φ] [DecidableEq τ] (kind : ListKind) (answer : Nat → Key φ τ → Option (PageData τ ι))

/-- A click on `Next page`. -/
def next (s : Reader φ τ ι) : Option (Reader φ τ ι) :=
  (s.controls kind).bind fun page => (nextToken kind.pageSize page).map fun token =>
    { s with visited := s.visited ++ [token], trail := s.trail ++ [page] }

/-- A click on `Previous page`. -/
def back (s : Reader φ τ ι) : Option (Reader φ τ ι) :=
  if s.atStart || (s.controls kind).isNone then none
  else
    some
      { s with
        visited := s.visited.dropLast
        inherited := if s.trail.isEmpty then s.inherited.dropLast else s.inherited
        trail := s.trail.dropLast }

/-- A click on `First`. -/
def reset (s : Reader φ τ ι) : Option (Reader φ τ ι) :=
  if s.atStart || (s.controls kind).isNone then none else some { s with visited := [], inherited := [], trail := [] }

/-- `applyFilter`: the walked pages of the old list no longer apply. -/
def applyFilter (s : Reader φ τ ι) (filter : φ) : Reader φ τ ι :=
  { s with filter, visited := [], inherited := [], trail := [] }

/-- Another list in the same place: its component is kept, and with it the visited cursors of the old one. -/
def switch (s : Reader φ τ ι) (filter : φ) : Reader φ τ ι := { s with filter, inherited := s.visited, trail := [] }

/-- One event, if it can happen. -/
def step (s : Reader φ τ ι) : Event φ τ → Option (Reader φ τ ι)
  | .next => (s.next kind).map draw
  | .back => (s.back kind).map draw
  | .reset => (s.reset kind).map draw
  | .filters filter => some (s.applyFilter filter).draw
  | .switches filter => some (s.switch filter).draw
  | .arrives key moment => (answer moment key).map fun page =>
      draw { s with cache := Function.update s.cache key (some page), failed := Function.update s.failed key false }
  | .fails key => some (draw { s with failed := Function.update s.failed key true })
  | .retries key => some (draw { s with failed := Function.update s.failed key false })
  | .evicts key => some (draw { s with cache := Function.update s.cache key none })

end Reader

/-! ## The lists -/

section

variable {Token Detail : Type}

variable (fetchTransactionOperations : Nat → Text → Option (List (OperationRecord Token Detail)))

end

/-- `HISTORY_PAGE`. -/
def historyPage : Nat := 20

/-- The history of an account: an empty page has no controls. -/
def accountHistory : ListKind := ⟨historyPage, false, false⟩

/-- A page of a history. Its `lastToken` is the one of the last entry. -/
def accountHistoryData {Token Detail : Type} (records : List (OperationRecord Token Detail)) :
    PageData Token (OperationRecord Token Detail) :=
  ⟨records, records.length, (groupByTransaction records).getLast?.map HistoryEntry.lastToken, none⟩

/-- `accountOperationsQuery`, a request at each moment. Its key names the address, and the cursor is apart. -/
def accountOperationsQuery {Token Detail : Type}
    (fetchAccountOperations : Nat → Text → Nat → Option Token → Option (List (OperationRecord Token Detail))) (moment : Nat)
    (key : Key Text Token) : Option (PageData Token (OperationRecord Token Detail)) :=
  (fetchAccountOperations moment key.1 historyPage key.2).map accountHistoryData

end CursorPages

end Soroscan

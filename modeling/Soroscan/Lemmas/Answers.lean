import Soroscan.Api
import Soroscan.Lemmas.Pages

/-!
# What an answer holds

The cursors the endpoint writes are read back as they were meant. An answer shows the matching rows between its own cursor and
the one it names next, whichever plan found them.
-/

namespace Soroscan

/-! ## Cursors -/

/-- A position as far down as `before`, or no position at all. -/
def reach (before : Option Cursor) : WithTop Position :=
  match before with
  | some c => (c.position : WithTop Position)
  | none => ⊤

theorem isLowerHex_of_mem_hexText {bs : List UInt8} {c : Char} (h : c ∈ hexText bs) : isLowerHex c = true := by
  have hvalue := hexValue_of_mem_hexText h
  unfold hexValue at hvalue
  unfold isLowerHex
  rw [Bool.or_eq_true, Bool.and_eq_true]
  split_ifs at hvalue with hdigit hletter
  · refine Or.inl ?_
    rw [Char.isDigit, Bool.and_eq_true, decide_eq_true_eq, decide_eq_true_eq]
    exact hdigit
  · exact Or.inr ⟨decide_eq_true hletter.1, decide_eq_true hletter.2⟩
  · cases hvalue

/-- The digits of a number stop at what follows them. -/
theorem takeWhile_decimal (n : Nat) (rest : Text) (hrest : ∀ c ∈ rest.head?, c.isDigit = false) :
    (decimal n ++ rest).takeWhile Char.isDigit = decimal n ∧ (decimal n ++ rest).dropWhile Char.isDigit = rest := by
  have hall : ∀ c ∈ decimal n, c.isDigit = true := fun c hc => isDigit_of_mem_decimal hc
  rw [List.takeWhile_append_of_pos hall, List.dropWhile_append_of_pos hall]
  cases rest with
  | nil => simp
  | cons c rest =>
    have hc := hrest c rfl
    rw [List.takeWhile_cons_of_neg (by simp [hc]), List.dropWhile_cons_of_neg (by simp [hc]), List.append_nil]
    exact ⟨rfl, rfl⟩

theorem decimal_length_le_ten (ledger : BitVec 32) :
    1 ≤ (decimal ledger.toNat).length ∧ (decimal ledger.toNat).length ≤ 10 :=
  ⟨decimal_length_pos _, decimal_length_le (by omega) (by have := ledger.isLt; omega)⟩

theorem cursorParts_bare (ledger : BitVec 32) :
    cursorParts (decimal ledger.toNat) = some (decimal ledger.toNat, none) := by
  obtain ⟨htake, hdrop⟩ := takeWhile_decimal ledger.toNat [] (by simp)
  rw [List.append_nil] at htake hdrop
  unfold cursorParts
  simp only [htake, hdrop, if_pos (decimal_length_le_ten ledger)]

theorem cursorParts_row (ledger : BitVec 32) (txHash : Bytes32) :
    cursorParts (rowCursor ledger txHash) = some (decimal ledger.toNat, some (hexText txHash.bytes)) := by
  have hdash : ∀ c ∈ ('-' :: hexText txHash.bytes).head?, c.isDigit = false := by
    intro c hc
    cases hc
    rfl
  obtain ⟨htake, hdrop⟩ := takeWhile_decimal ledger.toNat _ hdash
  have hhash : (hexText txHash.bytes).length = 64 ∧ (hexText txHash.bytes).all isLowerHex = true := by
    rw [hexText_length, txHash.length_eq]
    exact ⟨rfl, List.all_eq_true.mpr fun c hc => isLowerHex_of_mem_hexText hc⟩
  unfold cursorParts rowCursor
  simp only [htake, hdrop, if_pos (decimal_length_le_ten ledger), if_pos hhash]

/-- A text that begins with a digit has no scan prefix. -/
theorem scanPrefix_not_isPrefixOf (n : Nat) (rest : Text) : scanPrefix.isPrefixOf (decimal n ++ rest) = false := by
  rcases h : decimal n with _ | ⟨c, t⟩
  · exact absurd h (decimal_ne_nil n)
  · have hdigit : c.isDigit = true := isDigit_of_mem_decimal (n := n) (by rw [h]; exact List.mem_cons_self)
    have hne : 's' ≠ c := by
      rintro rfl
      cases hdigit
    simp [scanPrefix, List.isPrefixOf, hne]

theorem readDecimal_ledger {ledger : BitVec 32} (h : 0 < ledger.toNat) :
    readDecimal (decimal ledger.toNat) = some ledger.toNat ∧ ¬(2 ^ 32 ≤ ledger.toNat ∨ ledger.toNat = 0) ∧
      uint32 ledger.toNat = ledger := by
  have hlt := ledger.isLt
  exact ⟨readDecimal_decimal _, by omega, BitVec.eq_of_toNat_eq (by simp [uint32])⟩

/-- The cursor of a row leads back to the row's position. -/
theorem parseCursor_rowCursor {ledger : BitVec 32} (h : 0 < ledger.toNat) (txHash : Bytes32) :
    parseCursor (rowCursor ledger txHash) = some (⟨ledger, txHash⟩, false) := by
  obtain ⟨hread, hrange, hledger⟩ := readDecimal_ledger h
  have hprefix : scanPrefix.isPrefixOf (rowCursor ledger txHash) = false := scanPrefix_not_isPrefixOf _ _
  have hpattern : cursorPattern (rowCursor ledger txHash) =
      some (false, decimal ledger.toNat, some (hexText txHash.bytes)) := by
    rw [cursorPattern, hprefix, cursorParts_row]
    rfl
  unfold parseCursor
  simp only [hpattern, Bool.false_and, hread, hrange, readHex_hexText, txHash.length_eq, hledger]
  simp

/-- The cursor of a scan leads back to its ledger. -/
theorem parseCursor_scanCursor {ledger : BitVec 32} (h : 0 < ledger.toNat) :
    parseCursor (scanCursor ledger) = some (⟨ledger, Bytes32.zero⟩, true) := by
  obtain ⟨hread, hrange, hledger⟩ := readDecimal_ledger h
  have hprefix : scanPrefix.isPrefixOf (scanCursor ledger) = true := by
    rw [scanCursor, List.isPrefixOf_iff_prefix]
    exact List.prefix_append _ _
  have hpattern : cursorPattern (scanCursor ledger) = some (true, decimal ledger.toNat, none) := by
    rw [cursorPattern, hprefix, if_pos rfl, scanCursor, List.drop_left, cursorParts_bare]
    rfl
  unfold parseCursor
  simp only [hpattern, hread, hrange, hledger]
  simp

/-! ## The store's page -/

/-- What a row of a page shows of a stored row. -/
structure Reads (d : Dicts) (r : TxRow) (t : Transaction) : Prop where
  txHash : t.txHash = r.txHash
  ledger : t.ledger = uint32 r.ledger
  closedAt : t.closedAt = r.ledgerClosedAt
  function : d.functions.keyOf r.function = some t.function
  feeCharged : t.feeCharged = r.feeCharged

section

variable {db : Db} {contractID : Nat} {functionID : Option Nat} {filter : TransactionFilter}

theorem reads_of_scanRow {r : TxRow} {t : Transaction × Option Json} (h : scanRow db r = some t) :
    Reads db.dicts r t.1 ∧ t.2 = r.args := by
  obtain ⟨name, hname, rfl⟩ := Option.map_eq_some_iff.mp h
  exact ⟨⟨rfl, rfl, rfl, hname, rfl⟩, rfl⟩

theorem Reads.withArgs {d : Dicts} {r : TxRow} {t : Transaction} (h : Reads d r t) (args : Option Text) :
    Reads d r { t with argsJSON := args } := ⟨h.txHash, h.ledger, h.closedAt, h.function, h.feeCharged⟩

theorem Reads.expandRow {d : Dicts} {r : TxRow} {t : Transaction} (h : Reads d r t) (v : Option Json) :
    Reads d r (expandRow db t v) := by
  unfold Soroscan.expandRow
  split
  · exact h
  · exact h
  · exact h.withArgs _

/-- The rows of a statement are scanned one by one. -/
theorem forall₂_scanRow {rows : List TxRow} (h : ∀ r ∈ rows, (scanRow db r).isSome = true) :
    List.Forall₂ (fun r t => scanRow db r = some t) rows (rows.filterMap (scanRow db)) := by
  induction rows with
  | nil => exact List.Forall₂.nil
  | cons r rows ih =>
    obtain ⟨t, ht⟩ := Option.isSome_iff_exists.mp (h r List.mem_cons_self)
    rw [List.filterMap_cons_some ht]
    exact List.Forall₂.cons ht (ih fun r' hr' => h r' (List.mem_cons_of_mem _ hr'))

theorem forall₂_reads_expanded {rows : List TxRow} {out : List (Transaction × Option Json)}
    (h : List.Forall₂ (fun r t => scanRow db r = some t) rows out) {parsed : List (Option Json)}
    (hlen : parsed.length = out.length) :
    List.Forall₂ (Reads db.dicts) rows (List.zipWith (expandRow db) (out.map (·.1)) parsed) := by
  induction h generalizing parsed with
  | nil => exact List.Forall₂.nil
  | cons ht _ ih =>
    cases parsed with
    | nil => cases hlen
    | cons v parsed =>
      rw [List.length_cons, List.length_cons, Nat.succ.injEq] at hlen
      exact List.Forall₂.cons ((reads_of_scanRow ht).1.expandRow v) (ih hlen)

/-- The stored arguments of the rows are read back from their texts. -/
theorem parse_rows {rows : List TxRow} {out : List (Transaction × Option Json)}
    (h : List.Forall₂ (fun r t => scanRow db r = some t) rows out) (hargs : ∀ r ∈ rows, ∀ v, r.args = some v → v.Ok) :
    (out.mapM fun row => parseRaw row.2) = some (rows.map TxRow.args) := by
  induction h with
  | nil => rfl
  | @cons r t rows out ht _ ih =>
    have hparse : parseRaw t.2 = some r.args := by
      rw [(reads_of_scanRow ht).2]
      cases ha : r.args with
      | none => rfl
      | some v => rw [parseRaw, parseArgs, Json.parse_marshal (hargs r List.mem_cons_self v ha), Option.map_some]
    rw [List.mapM_cons, hparse, ih fun r' hr' => hargs r' (List.mem_cons_of_mem _ hr')]
    rfl

/-- The addresses are put back into well-formed arguments without a failure, and nothing else of the rows changes. -/
theorem expandArgs_reads {rows : List TxRow} {out : List (Transaction × Option Json)}
    (h : List.Forall₂ (fun r t => scanRow db r = some t) rows out) (hargs : ∀ r ∈ rows, ∀ v, r.args = some v → v.Ok) :
    ∃ transactions, expandArgs db out = some transactions ∧ List.Forall₂ (Reads db.dicts) rows transactions := by
  rw [expandArgs, parse_rows h hargs, Option.map_some]
  split_ifs
  · refine ⟨_, rfl, ?_⟩
    rw [List.forall₂_map_right_iff]
    exact h.imp fun _ _ ht => (reads_of_scanRow ht).1.withArgs _
  · exact ⟨_, rfl, forall₂_reads_expanded h (by rw [List.length_map, h.length_eq])⟩

/-- The arguments a row is shown with: the stored ones, their addresses back in place. -/
def shownArgs (db : Db) (r : TxRow) : Option Text :=
  r.args.map fun v => Json.marshal (resolvePlaceholders (addressOf db) v)

/-- What a row of a page shows of a stored row, its arguments included. -/
structure ReadsWhole (db : Db) (r : TxRow) (t : Transaction) : Prop extends Reads db.dicts r t where
  args : t.argsJSON = shownArgs db r

/-- A stored row is shown in one way. -/
theorem ReadsWhole.unique {r : TxRow} {t t' : Transaction} (h : ReadsWhole db r t) (h' : ReadsWhole db r t') : t = t' := by
  have hfunction : t.function = t'.function := Option.some.inj (h.function.symm.trans h'.function)
  cases t
  cases t'
  simp only [Transaction.mk.injEq]
  exact ⟨h.txHash.trans h'.txHash.symm, h.ledger.trans h'.ledger.symm, h.closedAt.trans h'.closedAt.symm, hfunction,
    h.args.trans h'.args.symm, h.feeCharged.trans h'.feeCharged.symm⟩

/-- A row with its stored text is shown whole, when it has no placeholder. -/
theorem readsWhole_of_scanRow {r : TxRow} {t : Transaction × Option Json} (h : scanRow db r = some t)
    (hplain : ∀ v, r.args = some v → collectPlaceholderIDs v = []) :
    ReadsWhole db r { t.1 with argsJSON := t.2.map Json.marshal } := by
  obtain ⟨hreads, hargs⟩ := reads_of_scanRow h
  refine ⟨hreads.withArgs _, ?_⟩
  show t.2.map Json.marshal = shownArgs db r
  rw [hargs, shownArgs]
  refine Option.map_congr fun v hv => ?_
  rw [resolvePlaceholders_eq_self _ v (hplain v hv)]

/-- A row whose addresses are put back is shown whole. -/
theorem readsWhole_expandRow {r : TxRow} {t : Transaction × Option Json} (h : scanRow db r = some t)
    (hnull : r.args ≠ some .null) : ReadsWhole db r (expandRow db t.1 r.args) := by
  obtain ⟨hreads, -⟩ := reads_of_scanRow h
  refine ⟨hreads.expandRow _, ?_⟩
  have hnone : t.1.argsJSON = none := by
    obtain ⟨name, -, rfl⟩ := Option.map_eq_some_iff.mp h
    rfl
  unfold Soroscan.expandRow shownArgs
  split
  · rename_i hargs
    rw [hnone, hargs]
    rfl
  · rename_i hargs
    exact absurd hargs hnull
  · rename_i hargs
    rw [hargs]
    rfl

/-- The rows of a page are shown whole: whether or not there is a placeholder among them makes no difference. -/
theorem expandArgs_readsWhole {rows : List TxRow} {out : List (Transaction × Option Json)}
    (h : List.Forall₂ (fun r t => scanRow db r = some t) rows out) (hargs : ∀ r ∈ rows, ∀ v, r.args = some v → v.Ok)
    (hnull : ∀ r ∈ rows, r.args ≠ some .null) :
    ∃ transactions, expandArgs db out = some transactions ∧ List.Forall₂ (ReadsWhole db) rows transactions := by
  rw [expandArgs, parse_rows h hargs, Option.map_some]
  split_ifs with hnone
  · refine ⟨_, rfl, ?_⟩
    rw [List.flatMap_map, List.flatMap_eq_nil_iff] at hnone
    rw [List.forall₂_map_right_iff]
    refine ((List.forall₂_and_left rows out).mpr ⟨hnone, h⟩).imp fun r t ht => readsWhole_of_scanRow ht.2 fun v hv => ?_
    have hids := ht.1
    rwa [hv] at hids
  · refine ⟨_, rfl, ?_⟩
    clear hnone hargs
    induction h with
    | nil => exact List.Forall₂.nil
    | cons ht _ ih =>
      exact List.Forall₂.cons (readsWhole_expandRow ht (hnull _ List.mem_cons_self))
        (ih fun r hr => hnull r (List.mem_cons_of_mem _ hr))

/-- The ids a filter is looked up as: no function, or the id of its name. -/
def FilterIDs (db : Db) (filter : TransactionFilter) (functionID : Option Nat) : Prop :=
  filter.function = [] ∧ functionID = none ∨
    filter.function ≠ [] ∧ ∃ id, db.dicts.functions.idOf filter.function = some id ∧ functionID = some id

/-- A page of the store for a known contract and function. -/
theorem transactionsByContract_holds (filter : TransactionFilter) (h : db.Readable) (fast : Bool) {contractStrkey : Text}
    {raw : Bytes32} (hraw : decodeStrkey contractStrkey strkeyVersionContract = some raw)
    (hcontract : db.dicts.contracts.idOf raw = some contractID) (hfunction : FilterIDs db filter functionID)
    (before : Option Cursor) (limit : Nat)
    (hscan : filter.continueScan = true → filter.function ≠ [] ∧ ∀ c, before = some c → c.txHash = Bytes32.zero) :
    ∃ rows, ∃ page : Page,
      Holds ((history db contractID functionID filter).filter (belowCursor before)) limit (scanTop before) rows
        page.continueLedger ∧
      List.Forall₂ (Reads db.dicts) rows page.transactions ∧ (0 < page.continueLedger → filter.function ≠ []) ∧
      transactionsByContract fast db contractStrkey before limit filter = .ok page := by
  -- whichever plan is taken, its rows are expanded without a failure
  have expanded : ∀ rows : List TxRow, (∀ r ∈ rows, r ∈ history db contractID functionID filter) →
      ∃ transactions, expandArgs db (rows.filterMap (scanRow db)) = some transactions ∧
        List.Forall₂ (Reads db.dicts) rows transactions := fun rows hmem =>
    expandArgs_reads (forall₂_scanRow fun r hr => scanRow_isSome h.scannable (hmem r hr))
      fun r hr v hv => h.args r (mem_history.mp (hmem r hr)).1 v hv
  have hledgers := pageByLedgers_eq contractID functionID filter h.scannable before limit
  obtain ⟨transactions, htransactions, hreads⟩ := expanded
    (((history db contractID functionID filter).filter (belowCursor before)).take limit)
    fun r hr => (List.mem_filter.mp (List.mem_of_mem_take hr)).1
  rw [htransactions] at hledgers
  have streamed : ∃ rows, ∃ page : Page,
      Holds ((history db contractID functionID filter).filter (belowCursor before)) limit (scanTop before) rows
        page.continueLedger ∧
      List.Forall₂ (Reads db.dicts) rows page.transactions ∧ page = ⟨transactions, 0⟩ :=
    ⟨_, _, Holds.full limit le_rfl rfl rfl, hreads, rfl⟩
  unfold transactionsByContract
  simp only [hraw, hcontract]
  rcases hfunction with ⟨hnone, rfl⟩ | ⟨hsome, id, hid, rfl⟩
  · obtain ⟨rows, page, hholds, hr, rfl⟩ := streamed
    refine ⟨rows, _, hholds, hr, fun hpos => absurd hpos (BitVec.lt_irrefl _), ?_⟩
    simp only [if_pos hnone, hledgers]
  · simp only [if_neg hsome, hid]
    split_ifs with hfast
    · obtain ⟨rows, page, hholds, hr, rfl⟩ := streamed
      refine ⟨rows, _, hholds, hr, fun _ => hsome, ?_⟩
      simp only [hledgers]
    · obtain ⟨rows, continueLedger, hholds, hmem, hpage⟩ := pageByWindows_holds h.scannable before limit fun hc => (hscan hc).2
      obtain ⟨transactions', hexpand, hreads'⟩ := expanded rows hmem
      refine ⟨rows, ⟨transactions', continueLedger⟩, hholds, hreads', fun _ => hsome, ?_⟩
      simp only [hpage, hexpand, Option.map_some]

/-! ## The answer -/

/-- What a row of an answer shows of a stored row. -/
structure Shows (d : Dicts) (o : TransactionOut) (r : TxRow) : Prop where
  txHash : o.txHash = hexText r.txHash.bytes
  ledger : o.ledger = uint32 r.ledger
  closedAt : o.closedAt = r.ledgerClosedAt
  function : d.functions.keyOf r.function = some o.function
  feeCharged : o.feeCharged = intDecimal r.feeCharged

theorem Reads.shows {d : Dicts} {r : TxRow} {t : Transaction} (h : Reads d r t) : Shows d (transactionOut t) r where
  txHash := by rw [transactionOut, h.txHash]
  ledger := h.ledger
  closedAt := h.closedAt
  function := h.function
  feeCharged := by rw [transactionOut, h.feeCharged]

/-- An answer over the rows below its cursor: it shows all of them, or those from the next cursor on, which is accepted and
further down. -/
inductive Answers (d : Dicts) (rows : List TxRow) (before : Option Cursor) (scans : Prop) (response : Response) : Prop where
  | last (hnext : response.nextCursor = none) (hshows : List.Forall₂ (Shows d) response.transactions rows)
  | more (next : Text) (c : Cursor) (continueScan : Bool) (hnext : response.nextCursor = some next)
      (hparse : parseCursor next = some (c, continueScan))
      (hscan : continueScan = true → scans ∧ c.txHash = Bytes32.zero)
      (hbelow : (c.position : WithTop Position) < reach before)
      (hshows : List.Forall₂ (Shows d) response.transactions (rows.filter fun r => decide (c.position ≤ r.position)))

theorem toNat_uint32 {n : Nat} (h : n < 2 ^ 32) : (uint32 n).toNat = n := by
  rw [uint32, BitVec.toNat_ofNat]
  omega

/-- A row at or above the zero hash of a ledger is on this ledger or above. -/
theorem zero_le_position_iff {ledger : Nat} {r : TxRow} :
    (toLex (ledger, Bytes32.zero) : Position) ≤ r.position ↔ ledger ≤ r.ledger := by
  rw [← not_lt, position_lt_iff, not_or, not_lt]
  exact ⟨And.left, fun h => ⟨h, fun hr => Bytes32.not_lt_zero _ hr.2⟩⟩

theorem forall₂_shows {d : Dicts} {rows : List TxRow} {transactions : List Transaction}
    (h : List.Forall₂ (Reads d) rows transactions) : List.Forall₂ (Shows d) (transactions.map transactionOut) rows := by
  rw [List.forall₂_map_left_iff]
  exact h.flip.imp fun _ _ hr => hr.shows

/-- A page that was cut to the limit: its next cursor is its last row. -/
theorem answers_cut {d : Dicts} {rows : List TxRow} {before : Option Cursor} {scans : Prop} {limit : Nat}
    (hd : Descending TxRow.position rows) (hledgers : ∀ r ∈ rows, 1 ≤ r.ledger ∧ r.ledger < 2 ^ 31)
    (hbelow : ∀ r ∈ rows, (r.position : WithTop Position) < reach before) (hlimit : 1 ≤ limit)
    {transactions : List Transaction} (hmore : limit < transactions.length) (continueLedger : BitVec 32)
    (hreads : List.Forall₂ (Reads d) (rows.take limit) (transactions.take limit)) :
    Answers d rows before scans (answer limit ⟨transactions, continueLedger⟩) := by
  rcases getLast?_of_forall₂ hreads with ⟨-, hnone⟩ | ⟨r, t, hr, ht, hrt⟩
  · rw [List.getLast?_eq_none_iff, List.take_eq_nil_iff] at hnone
    rcases hnone with hzero | hnil
    · omega
    · rw [hnil] at hmore
      exact absurd hmore (Nat.not_lt_zero _)
  · have hmem : r ∈ rows := List.mem_of_mem_take (List.mem_of_getLast? hr)
    obtain ⟨hone, hlt⟩ := hledgers r hmem
    have hledger : (uint32 r.ledger).toNat = r.ledger := toNat_uint32 (by omega)
    have hposition : Cursor.position ⟨uint32 r.ledger, r.txHash⟩ = r.position := by
      rw [Cursor.position, hledger, TxRow.position]
    refine Answers.more (rowCursor (uint32 r.ledger) r.txHash) ⟨uint32 r.ledger, r.txHash⟩ false ?_
      (parseCursor_rowCursor (by omega) _) (fun h => by cases h) ?_ ?_
    · simp only [answer, nextCursorOf, ht, hmore, decide_true, hrt.ledger, hrt.txHash]
    · rw [hposition]
      exact hbelow r hmem
    · rw [hposition, ← hd.take_eq_filter hr]
      exact forall₂_shows hreads

/-- A page of the store as an answer. -/
theorem answers_of_holds {d : Dicts} {rows held : List TxRow} {before : Option Cursor} {scans : Prop} {limit : Nat}
    (hd : Descending TxRow.position rows) (hledgers : ∀ r ∈ rows, 1 ≤ r.ledger ∧ r.ledger < 2 ^ 31)
    (hbelow : ∀ r ∈ rows, (r.position : WithTop Position) < reach before) (hlimit : 1 ≤ limit) {page : Page}
    (hholds : Holds rows (limit + 1) (scanTop before) held page.continueLedger)
    (hreads : List.Forall₂ (Reads d) held page.transactions) (hscans : 0 < page.continueLedger → scans) :
    Answers d rows before scans (answer limit page) := by
  obtain ⟨transactions, continueLedger⟩ := page
  have hlen : held.length = transactions.length := hreads.length_eq
  -- a page over its limit shows the first rows
  have cut : limit < transactions.length → held.take limit = rows.take limit →
      Answers d rows before scans (answer limit ⟨transactions, continueLedger⟩) := fun hmore heq =>
    answers_cut hd hledgers hbelow hlimit hmore continueLedger (by rw [← heq]; exact List.forall₂_take limit hreads)
  by_cases hmore : limit < transactions.length
  · refine cut hmore ?_
    cases hholds with
    | full n hn hheld _ => rw [hheld, List.take_take, min_eq_left (by omega)]
    | cut hi hpos htop hle hheld _ =>
      have hnat : held = rows.filter fun r => decide ((hi : Int) ≤ r.ledger) :=
        hheld.trans (List.filter_congr fun r _ => by simp)
      rw [hnat] at hlen ⊢
      exact take_filter_ledger hd.falling hi (by omega)
  · have hshows : List.Forall₂ (Shows d) (answer limit ⟨transactions, continueLedger⟩).transactions held := by
      rw [answer, List.take_of_length_le (not_lt.mp hmore)]
      exact forall₂_shows hreads
    have hnextCursor : (answer limit ⟨transactions, continueLedger⟩).nextCursor =
        if 0 < continueLedger then some (scanCursor continueLedger) else none := by
      simp only [answer, nextCursorOf, hmore, decide_false]
    cases hholds with
    | full n hn hheld hnext =>
      have hzero : ¬0 < continueLedger := by
        rw [show continueLedger = 0 from hnext]
        exact BitVec.lt_irrefl _
      refine Answers.last (by rw [hnextCursor, if_neg hzero]) ?_
      rw [hheld, List.length_take] at hlen
      rwa [hheld, List.take_of_length_le (by omega)] at hshows
    | cut hi hpos htop hle hheld hnext =>
      have hlt : hi < 2 ^ 32 := by
        unfold scanTop at htop
        split at htop
        · rename_i c
          have := c.ledger.isLt
          omega
        · omega
      have hledger : continueLedger.toNat = hi := by
        rw [show continueLedger = uint32 hi from hnext]
        exact toNat_uint32 hlt
      have hposLedger : 0 < continueLedger := by
        rw [BitVec.lt_def, hledger]
        exact hpos
      refine Answers.more (scanCursor continueLedger) ⟨continueLedger, Bytes32.zero⟩ true
        (by rw [hnextCursor, if_pos hposLedger]) (parseCursor_scanCursor (by omega)) (fun _ => ⟨hscans hposLedger, rfl⟩) ?_ ?_
      · rw [Cursor.position, hledger]
        cases before with
        | none => exact WithTop.coe_lt_top _
        | some c =>
          refine WithTop.coe_lt_coe.mpr (Prod.Lex.toLex_lt_toLex.mpr (Or.inl ?_))
          have htop : (hi : Int) < c.ledger.toNat + 1 - 1 := htop
          show hi < c.ledger.toNat
          omega
      · rw [Cursor.position, hledger]
        have heq : (rows.filter fun r => decide ((toLex (hi, Bytes32.zero) : Position) ≤ r.position)) = held :=
          (List.filter_congr fun r _ => decide_eq_decide.mpr zero_le_position_iff).trans hheld.symm
        rw [heq]
        exact hshows

end

end Soroscan

import Soroscan.Pages
import Soroscan.Lemmas.Accepts

/-!
# What a page holds

The matching rows of a contract in their order are its `history`. A page of the streaming plan is the first rows of the history
below the cursor; a page of the windowed scan is that, or everything from the ledger on where the scan ran out of budget.
-/

namespace Soroscan

/-- What the reader relies on. The rows of a contract have pairwise distinct positions and positive ledgers of 31 bits, and
the rows are as `SaveLedger` writes them. -/
structure Db.Readable (db : Db) : Prop extends db.WellWritten where
  positions : ∀ contractID, ((db.transactions.filter fun r => r.contractId = contractID).map TxRow.position).Nodup
  ledgers : ∀ r ∈ db.transactions, 1 ≤ r.ledger ∧ r.ledger < 2 ^ 31

/-- What a statement relies on, of this: the rows have functions of the dictionary, and positive ledgers of 31 bits. -/
structure Db.Scannable (db : Db) : Prop where
  functions : ∀ r ∈ db.transactions, ∃ name, db.dicts.functions.keyOf r.function = some name
  ledgers : ∀ r ∈ db.transactions, 1 ≤ r.ledger ∧ r.ledger < 2 ^ 31

theorem Db.Readable.scannable {db : Db} (h : db.Readable) : db.Scannable := ⟨h.functions, h.ledgers⟩

/-- The position of a cursor. -/
def Cursor.position (c : Cursor) : Position := toLex (c.ledger.toNat, c.txHash)

/-- A row below another position is on a lower ledger, or on the same one with a lower hash. -/
theorem position_lt_iff {r : TxRow} {ledger : Nat} {txHash : Bytes32} :
    r.position < toLex (ledger, txHash) ↔ r.ledger < ledger ∨ r.ledger = ledger ∧ r.txHash < txHash := Prod.Lex.toLex_lt_toLex

section

variable (db : Db) (contractID : Nat) (functionID : Option Nat) (filter : TransactionFilter)

/-- The matching rows of a contract, the newest first. -/
def history : List TxRow := descending TxRow.position (matchingRows db contractID functionID filter)

/-- The row is below the cursor, if there is one. -/
def belowCursor (before : Option Cursor) (r : TxRow) : Bool :=
  match before with
  | some c => decide (r.position < c.position)
  | none => true

variable {db contractID functionID filter}

theorem mem_matchingRows {r : TxRow} : r ∈ matchingRows db contractID functionID filter ↔
    r ∈ db.transactions ∧ r.contractId = contractID ∧ filterPredicates functionID filter r = true := by
  rw [matchingRows, List.mem_filter, Bool.and_eq_true, decide_eq_true_eq]

theorem mem_history {r : TxRow} : r ∈ history db contractID functionID filter ↔
    r ∈ db.transactions ∧ r.contractId = contractID ∧ filterPredicates functionID filter r = true := by
  rw [history, mem_descending, mem_matchingRows]

theorem matchingRows_positions_nodup (h : db.Readable) :
    ((matchingRows db contractID functionID filter).map TxRow.position).Nodup := by
  refine (h.positions contractID).sublist (List.Sublist.map _ ?_)
  have hsub : matchingRows db contractID functionID filter =
      (db.transactions.filter fun r => r.contractId = contractID).filter (filterPredicates functionID filter) := by
    rw [matchingRows, List.filter_filter]
    exact List.filter_congr fun r _ => Bool.and_comm _ _
  rw [hsub]
  exact List.filter_sublist

theorem history_descending (h : db.Readable) : Descending TxRow.position (history db contractID functionID filter) :=
  descending_of_nodup (matchingRows_positions_nodup h)

theorem history_falling : Falling TxRow.position (history db contractID functionID filter) := falling_descending _

/-- A statement's rows are the rows of the history with its condition. -/
theorem selectRows_eq (cond : TxRow → Bool) :
    selectRows db contractID functionID filter cond = (history db contractID functionID filter).filter cond :=
  descending_filter _ cond

theorem ledger_of_history (h : db.Scannable) {r : TxRow} (hr : r ∈ history db contractID functionID filter) :
    1 ≤ r.ledger ∧ r.ledger < 2 ^ 31 := h.ledgers r (mem_history.mp hr).1

/-- The join leaves no row of the history out. -/
theorem scanRow_isSome (h : db.Scannable) {r : TxRow} (hr : r ∈ history db contractID functionID filter) :
    (scanRow db r).isSome = true := by
  obtain ⟨name, hname⟩ := h.functions r (mem_history.mp hr).1
  rw [scanRow, hname]
  rfl

theorem scanRow_isSome_filter (h : db.Scannable) (cond : TxRow → Bool) {r : TxRow}
    (hr : r ∈ (history db contractID functionID filter).filter cond) : (scanRow db r).isSome = true :=
  scanRow_isSome h (List.mem_filter.mp hr).1

theorem scanRows_eq (h : db.Scannable) (limit : Nat) (cond : TxRow → Bool) :
    scanRows db contractID functionID filter limit cond =
      (((history db contractID functionID filter).filter cond).take limit).filterMap (scanRow db) := by
  rw [scanRows, selectRows_eq, take_filterMap_of_isSome fun r hr => scanRow_isSome_filter h cond hr]

/-! ## The streaming plan -/

/-- The rest of the cursor's ledger and the ledgers below it are what is below the cursor. -/
theorem filter_belowCursor_some (c : Cursor) :
    (history db contractID functionID filter).filter (belowCursor (some c)) =
      ((history db contractID functionID filter).filter fun r => r.ledger = c.ledger.toNat && r.txHash < c.txHash) ++
        (history db contractID functionID filter).filter fun r => r.ledger < c.ledger.toNat := by
  rw [← history_falling.filter_or]
  · refine List.filter_congr fun r _ => ?_
    rw [Bool.eq_iff_iff]
    simp only [belowCursor, Cursor.position, position_lt_iff, decide_eq_true_eq, Bool.or_eq_true, Bool.and_eq_true]
    exact or_comm
  · intro a _ b _ ha hb
    simp only [Bool.and_eq_true, decide_eq_true_eq] at ha hb
    exact position_lt_iff.mpr (Or.inl (by omega))

theorem history_filter_perm (cond : TxRow → Bool) :
    ((history db contractID functionID filter).filter cond).Perm
      ((matchingRows db contractID functionID filter).filter cond) := (descending_perm _).filter cond

/-- The newest ledgers below a bound hold the first rows below it. -/
theorem take_recentLedgers (below n : Nat) :
    ((history db contractID functionID filter).filter fun r =>
        r.ledger ∈ recentLedgers db contractID functionID filter below n).take n =
      ((history db contractID functionID filter).filter fun r => r.ledger < below).take n := by
  have hledgers : recentLedgers db contractID functionID filter below n =
      topGroups TxRow.ledger n ((history db contractID functionID filter).filter fun r => r.ledger < below) :=
    (topGroups_perm (history_filter_perm _) n).symm
  have hsame : ((history db contractID functionID filter).filter fun r =>
        r.ledger ∈ recentLedgers db contractID functionID filter below n) =
      (((history db contractID functionID filter).filter fun r => r.ledger < below).filter fun r =>
        decide (r.ledger ∈ recentLedgers db contractID functionID filter below n)) := by
    rw [List.filter_filter]
    refine List.filter_congr fun r _ => ?_
    rw [Bool.eq_iff_iff, Bool.and_eq_true, decide_eq_true_eq, decide_eq_true_eq]
    refine ⟨fun hr => ⟨hr, ?_⟩, And.left⟩
    rw [hledgers] at hr
    obtain ⟨a, ha, heq⟩ := mem_of_mem_topGroups hr
    rw [← heq]
    simpa using (List.mem_filter.mp ha).2
  rw [hsame, hledgers]
  exact take_filter_topGroups TxRow.ledger (history_falling.filter _)
    (fun a _ b _ hlt => position_lt_iff.mpr (Or.inl hlt)) n

/-- The rows of the cursor's ledger, followed by whole ledgers as far as they are needed, are the first rows of the two
together. -/
theorem take_append_recentLedgers (rows : List TxRow) (below limit : Nat) :
    rows.take limit ++ ((history db contractID functionID filter).filter fun r =>
        r.ledger ∈ recentLedgers db contractID functionID filter below (limit - rows.length)).take (limit - rows.length) =
      (rows ++ (history db contractID functionID filter).filter fun r => r.ledger < below).take limit := by
  rw [take_recentLedgers, List.take_append]

/-- The body of `pageByLedgers` behind its first statement. -/
theorem pageByLedgers_rest (h : db.Scannable) {rows : List TxRow} (hrows : ∀ r ∈ rows, (scanRow db r).isSome = true)
    {out : List (Transaction × Option Json)} (below limit : Nat) (hout : out = (rows.take limit).filterMap (scanRow db)) :
    (if 0 < limit - out.length then
      if recentLedgers db contractID functionID filter below (limit - out.length) = [] then expandArgs db out
      else expandArgs db ((out ++ (selectRows db contractID functionID filter fun r =>
        r.ledger ∈ recentLedgers db contractID functionID filter below (limit - out.length)).filterMap
          (scanRow db)).take limit)
    else expandArgs db out) =
      expandArgs db (((rows ++ (history db contractID functionID filter).filter fun r => r.ledger < below).take
        limit).filterMap (scanRow db)) := by
  have hrest : limit - out.length = limit - rows.length := by
    rw [hout, length_filterMap_of_isSome fun r hr => hrows r (List.mem_of_mem_take hr), List.length_take]
    omega
  rw [hrest, ← take_append_recentLedgers, selectRows_eq]
  split_ifs with hpos hnone
  · -- no ledger is left below the bound
    simp [hnone, hout]
  · congr 1
    rw [hout, ← List.filterMap_append, take_filterMap_of_isSome, List.take_append, List.take_take, min_self,
      List.length_take]
    · have hmin : limit - min limit rows.length = limit - rows.length := by omega
      rw [hmin]
    · intro r hr
      rcases List.mem_append.mp hr with hr | hr
      · exact hrows r (List.mem_of_mem_take hr)
      · exact scanRow_isSome_filter h _ hr
  · rw [Nat.eq_zero_of_not_pos hpos, List.take_zero, List.append_nil, hout]

/-- A page of the streaming plan: the first rows of the history below the cursor. -/
theorem pageByLedgers_eq (contractID : Nat) (functionID : Option Nat) (filter : TransactionFilter) (h : db.Scannable)
    (before : Option Cursor) (limit : Nat) :
    pageByLedgers db contractID functionID filter before limit =
      expandArgs db ((((history db contractID functionID filter).filter (belowCursor before)).take limit).filterMap
        (scanRow db)) := by
  cases before with
  | none =>
    have hall : ((history db contractID functionID filter).filter fun r => r.ledger < maxInt64) =
        (history db contractID functionID filter).filter (belowCursor none) := by
      refine List.filter_congr fun r hr => ?_
      have := (ledger_of_history h hr).2
      exact decide_eq_true (by unfold maxInt64; omega)
    rw [← hall, ← List.nil_append (List.filter _ _)]
    exact pageByLedgers_rest h (fun r hr => by cases hr) maxInt64 limit (by simp)
  | some c =>
    rw [filter_belowCursor_some]
    exact pageByLedgers_rest h (fun r hr => scanRow_isSome_filter h _ hr) c.ledger.toNat limit (scanRows_eq h limit _)

/-! ## The windowed scan -/

/-- Where the loop stands: the scan has reached `hi`, and the rows it found are the first ones of those it was started for from
`hi` on. The row bound says the same as the start of the scan about everything that is left. -/
structure Scanned (db : Db) (contractID : Nat) (functionID : Option Nat) (filter : TransactionFilter) (start : TxRow → Bool)
    (limit : Nat) (rowBound : Option Cursor) (hi : Int) (out : List (Transaction × Option Json)) : Prop where
  out_eq : out = (((history db contractID functionID filter).filter fun r =>
    start r && decide (hi ≤ r.ledger)).take (limit + 1)).filterMap (scanRow db)
  bound : ∀ r ∈ history db contractID functionID filter, (r.ledger : Int) < hi → withinBound rowBound r = start r
  below : ∀ r ∈ history db contractID functionID filter, (r.ledger : Int) < hi - 1 → start r = true

/-- As long as the page is not over its limit, nothing was cut off. -/
theorem Scanned.out_complete {start : TxRow → Bool} {limit : Nat} {rowBound : Option Cursor} {hi : Int}
    {out : List (Transaction × Option Json)} (h : db.Scannable)
    (hs : Scanned db contractID functionID filter start limit rowBound hi out) (hlen : out.length ≤ limit) :
    out.length = ((history db contractID functionID filter).filter fun r => start r && decide (hi ≤ r.ledger)).length ∧
      out = ((history db contractID functionID filter).filter fun r =>
        start r && decide (hi ≤ r.ledger)).filterMap (scanRow db) := by
  have hout := hs.out_eq
  have hcut := congrArg List.length hout
  rw [length_filterMap_of_isSome fun r hr => scanRow_isSome_filter h _ (List.mem_of_mem_take hr), List.length_take] at hcut
  rw [List.take_of_length_le (by omega)] at hout
  exact ⟨by omega, hout⟩

/-- The rows from a lower ledger on are those that were found and those of the window. -/
theorem filter_window {start : TxRow → Bool} {rowBound : Option Cursor} {lo hi : Int} (hle : lo ≤ hi)
    (hbound : ∀ r ∈ history db contractID functionID filter, (r.ledger : Int) < hi → withinBound rowBound r = start r) :
    ((history db contractID functionID filter).filter fun r => start r && decide (lo ≤ r.ledger)) =
      ((history db contractID functionID filter).filter fun r => start r && decide (hi ≤ r.ledger)) ++
        (history db contractID functionID filter).filter (inWindow lo hi rowBound) := by
  rw [← history_falling.filter_or]
  · refine List.filter_congr fun r hr => ?_
    rw [Bool.eq_iff_iff]
    simp only [inWindow, Bool.or_eq_true, Bool.and_eq_true, decide_eq_true_eq]
    constructor
    · rintro ⟨hstart, hlo⟩
      by_cases hhi : hi ≤ r.ledger
      · exact Or.inl ⟨hstart, hhi⟩
      · exact Or.inr ⟨⟨hlo, not_le.mp hhi⟩, by rw [hbound r hr (not_le.mp hhi), hstart]⟩
    · rintro (⟨hstart, hhi⟩ | ⟨⟨hlo, hhi⟩, hwithin⟩)
      · exact ⟨hstart, le_trans hle hhi⟩
      · exact ⟨by rw [← hbound r hr hhi, hwithin], hlo⟩
  · intro a _ b _ ha hb
    simp only [inWindow, Bool.and_eq_true, decide_eq_true_eq] at ha hb
    exact position_lt_iff.mpr (Or.inl (by omega))

/-- One window. -/
theorem Scanned.window {start : TxRow → Bool} {limit : Nat} {rowBound : Option Cursor} {lo hi : Int}
    {out : List (Transaction × Option Json)} (h : db.Scannable)
    (hs : Scanned db contractID functionID filter start limit rowBound hi out) (hlen : out.length ≤ limit) (hlo : lo < hi) :
    Scanned db contractID functionID filter start limit none lo
      (out ++ scanRows db contractID functionID filter (limit + 1 - out.length) (inWindow lo hi rowBound)) := by
  obtain ⟨hlength, -⟩ := hs.out_complete h hlen
  refine ⟨?_, fun r hr hlt => (hs.below r hr (by omega)).symm, fun r hr hlt => hs.below r hr (by omega)⟩
  rw [filter_window hlo.le hs.bound, List.take_append, List.filterMap_append, ← hs.out_eq, scanRows_eq h, hlength]

/-- The whole loop: it ends with the rows from a lower ledger on, and, if it could have gone on, after all its windows. -/
theorem scanned_scanWindows (h : db.Scannable) {start : TxRow → Bool} {floor : Int} {limit : Nat} {windows : Nat}
    {rowBound : Option Cursor} {hi : Int} {out : List (Transaction × Option Json)}
    (hs : Scanned db contractID functionID filter start limit rowBound hi out)
    {out' : List (Transaction × Option Json)} {hi' : Int}
    (heq : scanWindows db contractID functionID filter floor limit windows rowBound hi out = (out', hi')) :
    (∃ rowBound', Scanned db contractID functionID filter start limit rowBound' hi' out') ∧ hi' ≤ hi ∧
      (floor < hi' → out'.length ≤ limit → hi' = hi - windows * scanWindowLedgers) := by
  induction windows generalizing rowBound hi out with
  | zero =>
    rw [scanWindows, Prod.mk.injEq] at heq
    obtain ⟨rfl, rfl⟩ := heq
    exact ⟨⟨rowBound, hs⟩, le_refl _, fun _ _ => by simp⟩
  | succ windows ih =>
    rw [scanWindows] at heq
    split_ifs at heq with hgo
    · have hlo : max (hi - scanWindowLedgers) floor < hi := max_lt (by unfold scanWindowLedgers; omega) hgo.1
      obtain ⟨hscanned, hle, hend⟩ := ih (hs.window h hgo.2 hlo) heq
      refine ⟨hscanned, le_trans hle hlo.le, fun hfloor hlen => ?_⟩
      have hhi' := hend hfloor hlen
      have hmax : max (hi - scanWindowLedgers) floor = hi - scanWindowLedgers := by
        refine max_eq_left (le_of_lt ?_)
        rcases le_total (hi - scanWindowLedgers) floor with hm | hm
        · rw [max_eq_right hm] at hle
          omega
        · rw [max_eq_left hm] at hle
          omega
      rw [hhi', hmax]
      push_cast
      ring
    · rw [Prod.mk.injEq] at heq
      obtain ⟨rfl, rfl⟩ := heq
      exact ⟨⟨rowBound, hs⟩, le_refl _, fun hfloor hlen => absurd ⟨hfloor, hlen⟩ hgo⟩

/-! ## What a page holds -/

/-- The rows of a page out of the rows it may hold: the first ones, at least as many as asked for, or all from the ledger on
where a scan from `top` ran out of budget. -/
inductive Holds (rows : List TxRow) (limit : Nat) (top : Int) (held : List TxRow) (continueLedger : BitVec 32) : Prop where
  | full (n : Nat) (hn : limit ≤ n) (hheld : held = rows.take n) (hnext : continueLedger = 0)
  | cut (hi : Nat) (hpos : 0 < hi) (htop : (hi : Int) < top - 1) (hlen : held.length ≤ limit)
      (hheld : held = rows.filter fun r => hi ≤ r.ledger) (hnext : continueLedger = uint32 hi)

/-- What a scan from below `top` found of the rows it is to find: the first ones, up to one more than its limit; or, when it ran out
of budget before, all from the ledger on that it has reached. -/
inductive Scans (rows : List TxRow) (limit : Nat) (top : Int) (found : List TxRow) (continueLedger : BitVec 32) : Prop where
  | whole (hfound : found = rows.take (limit + 1)) (hnext : continueLedger = 0)
  | part (hi : Nat) (hpos : 0 < hi) (htop : (hi : Int) < top - 1) (hlen : found.length ≤ limit)
      (hfound : found = rows.filter fun r => hi ≤ r.ledger) (hnext : continueLedger = uint32 hi)

/-- What a scan found is what a page may hold. -/
theorem Scans.holds {rows found : List TxRow} {limit : Nat} {top top' : Int} {continueLedger : BitVec 32}
    (h : Scans rows limit top found continueLedger) (hle : top ≤ top') : Holds rows limit top' found continueLedger := by
  cases h with
  | whole hfound hnext => exact Holds.full _ (Nat.le_succ _) hfound hnext
  | part hi hpos htop hlen hfound hnext => exact Holds.cut hi hpos (by omega) hlen hfound hnext

/-- The rows of a descending list from some ledger on are its first ones. -/
theorem filter_ledger_append {rows : List TxRow} (hd : Falling TxRow.position rows) (hi : Int) :
    (rows.filter fun r => decide (hi ≤ r.ledger)) ++ (rows.filter fun r => decide ((r.ledger : Int) < hi)) = rows := by
  rw [← hd.filter_or]
  · rw [List.filter_eq_self.mpr]
    intro r _
    simp only [Bool.or_eq_true, decide_eq_true_eq]
    exact le_or_gt _ _
  · intro a _ b _ ha hb
    rw [decide_eq_true_eq] at ha hb
    exact position_lt_iff.mpr (Or.inl (by omega))

/-- The first rows of a descending list are those from some ledger on, if there are enough of them. -/
theorem take_filter_ledger {rows : List TxRow} (hd : Falling TxRow.position rows) (hi : Int) {n : Nat}
    (hlen : n ≤ (rows.filter fun r => decide (hi ≤ r.ledger)).length) :
    (rows.filter fun r => decide (hi ≤ r.ledger)).take n = rows.take n := by
  conv_rhs => rw [← filter_ledger_append hd hi]
  rw [List.take_append_of_le_length hlen]

/-- A scan from where it starts: what its page holds. -/
theorem pageBelow_scans (h : db.Scannable) {start : TxRow → Bool} {floor : Nat} {limit : Nat} {rowBound : Option Cursor}
    {hi : Int} (hs : Scanned db contractID functionID filter start limit rowBound hi []) (hpos : 0 < floor)
    (hfloor : ∀ r ∈ history db contractID functionID filter, floor ≤ r.ledger) :
    ∃ rows continueLedger, Scans ((history db contractID functionID filter).filter start) limit hi rows continueLedger ∧
      (∀ r ∈ rows, r ∈ history db contractID functionID filter) ∧
      pageBelow db contractID functionID filter floor rowBound hi limit =
        (expandArgs db (rows.filterMap (scanRow db))).map fun transactions => ⟨transactions, continueLedger⟩ := by
  rcases heq : scanWindows db contractID functionID filter floor limit scanWindowsPerPage rowBound hi [] with ⟨out, hi'⟩
  obtain ⟨⟨rowBound', hscanned⟩, -, hend⟩ := scanned_scanWindows h hs heq
  have hpage : pageBelow db contractID functionID filter floor rowBound hi limit =
      (expandArgs db out).map fun transactions =>
        ⟨transactions, if out.length ≤ limit ∧ (floor : Int) < hi' then BitVec.ofInt 32 hi' else 0⟩ := by
    rw [pageBelow, heq]
  have hfilter : ((history db contractID functionID filter).filter fun r => start r && decide (hi' ≤ r.ledger)) =
      ((history db contractID functionID filter).filter start).filter fun r => decide (hi' ≤ r.ledger) := by
    rw [List.filter_filter]
    exact List.filter_congr fun r _ => Bool.and_comm _ _
  have hmem : ∀ r ∈ (history db contractID functionID filter).filter start, r ∈ history db contractID functionID filter :=
    fun r hr => (List.mem_filter.mp hr).1
  by_cases hgo : out.length ≤ limit ∧ (floor : Int) < hi'
  · -- the budget ran out: nothing was cut off
    obtain ⟨hlen, hout⟩ := hscanned.out_complete h hgo.1
    have hhi := hend hgo.2 hgo.1
    obtain ⟨n, hn⟩ := Int.eq_ofNat_of_zero_le (show 0 ≤ hi' by omega)
    rw [hfilter, hn] at hout hlen
    have hnat : (((history db contractID functionID filter).filter start).filter fun r => decide ((n : Int) ≤ r.ledger)) =
        ((history db contractID functionID filter).filter start).filter fun r => decide (n ≤ r.ledger) :=
      List.filter_congr fun r _ => by simp
    rw [hnat] at hout hlen
    refine ⟨_, _, Scans.part n (by omega) ?_ (by omega) rfl rfl, fun r hr => hmem r (List.mem_filter.mp hr).1, ?_⟩
    · rw [← hn, hhi]
      unfold scanWindowsPerPage scanWindowLedgers
      omega
    · rw [hpage, if_pos hgo, hout, hn]
      rfl
  · refine ⟨((history db contractID functionID filter).filter start).take (limit + 1), 0,
      Scans.whole rfl rfl,
      fun r hr => hmem r (List.mem_of_mem_take hr), ?_⟩
    rw [hpage, if_neg hgo, hscanned.out_eq, hfilter]
    congr 3
    by_cases hfull : limit + 1 ≤
        (((history db contractID functionID filter).filter start).filter fun r => decide (hi' ≤ r.ledger)).length
    · exact take_filter_ledger (history_falling.filter start) hi' hfull
    · -- the scan is not over its limit, so it reached the floor, and every row with it
      have hlen : out.length ≤ limit := by
        rw [hscanned.out_eq, length_filterMap_of_isSome fun r hr => scanRow_isSome_filter h _ (List.mem_of_mem_take hr),
          List.length_take, hfilter]
        omega
      have hall : (((history db contractID functionID filter).filter start).filter fun r => decide (hi' ≤ r.ledger)) =
          (history db contractID functionID filter).filter start := by
        refine List.filter_eq_self.mpr fun r hr => decide_eq_true ?_
        have hle := hfloor r (hmem r hr)
        have hreached : hi' ≤ floor := not_lt.mp fun hlt => hgo ⟨hlen, hlt⟩
        omega
      rw [hall]

/-- The oldest ledger is a lower bound of the history. -/
theorem scanFloor_le {r : TxRow} (hr : r ∈ history db contractID functionID filter) :
    scanFloor db contractID filter.from ≤ r.ledger := by
  obtain ⟨hmem, hcontract, hpred⟩ := mem_history.mp hr
  simp only [filterPredicates, Bool.and_eq_true] at hpred
  have hin : r.ledger ∈ (db.transactions.filter fun r =>
      r.contractId = contractID && (filter.from.isZero || filter.from.micros ≤ r.ledgerClosedAt)).map TxRow.ledger :=
    List.mem_map_of_mem (List.mem_filter.mpr ⟨hmem, by simp only [hcontract, hpred.1.2, decide_true, Bool.and_self]⟩)
  exact List.min?_getD_le_of_mem hin

/-- The newest ledger is an upper bound of the history. -/
theorem le_scanCeiling {r : TxRow} (hr : r ∈ history db contractID functionID filter) :
    r.ledger ≤ scanCeiling db contractID filter.to := by
  obtain ⟨hmem, hcontract, hpred⟩ := mem_history.mp hr
  simp only [filterPredicates, Bool.and_eq_true] at hpred
  have hin : r.ledger ∈ (db.transactions.filter fun r =>
      r.contractId = contractID && (filter.to.isZero || r.ledgerClosedAt ≤ filter.to.micros)).map TxRow.ledger :=
    List.mem_map_of_mem (List.mem_filter.mpr ⟨hmem, by simp only [hcontract, hpred.2, decide_true, Bool.and_self]⟩)
  exact List.le_max?_getD_of_mem hin

theorem scanCeiling_lt (h : db.Scannable) (contractID : Nat) («to» : Instant) : scanCeiling db contractID «to» < 2 ^ 31 := by
  unfold scanCeiling
  cases hmax : (List.max? _ : Option Nat) with
  | none =>
    show 0 < 2 ^ 31
    omega
  | some m =>
    obtain ⟨r, hr, rfl⟩ := List.mem_map.mp (List.max?_mem hmax)
    exact (h.ledgers r (List.mem_filter.mp hr).1).2

/-- A contract with a matching row has a positive oldest ledger. -/
theorem scanFloor_pos (h : db.Scannable) {r : TxRow} (hr : r ∈ history db contractID functionID filter) :
    0 < scanFloor db contractID filter.from := by
  have hmem := mem_history.mp hr
  unfold scanFloor
  cases hmin : (List.min? _ : Option Nat) with
  | none =>
    rw [List.min?_eq_none_iff, List.map_eq_nil_iff, List.filter_eq_nil_iff] at hmin
    have hpred := hmem.2.2
    simp only [filterPredicates, Bool.and_eq_true] at hpred
    refine absurd ?_ (hmin r hmem.1)
    simp only [hmem.2.1, hpred.1.2, decide_true, Bool.and_self]
  | some m =>
    obtain ⟨r', hr', rfl⟩ := List.mem_map.mp (List.min?_mem hmin)
    exact (h.ledgers r' (List.mem_filter.mp hr').1).1

/-- The ledger a scan starts below. -/
def scanTop (before : Option Cursor) : Int :=
  match before with
  | some c => c.ledger.toNat + 1
  | none => 2 ^ 31

/-- Nothing was scanned yet. -/
theorem scanned_start {start : TxRow → Bool} {limit : Nat} {rowBound : Option Cursor} {hi : Int}
    (hstart : ∀ r ∈ history db contractID functionID filter, start r = true → (r.ledger : Int) < hi)
    (hbound : ∀ r ∈ history db contractID functionID filter, (r.ledger : Int) < hi → withinBound rowBound r = start r)
    (hbelow : ∀ r ∈ history db contractID functionID filter, (r.ledger : Int) < hi - 1 → start r = true) :
    Scanned db contractID functionID filter start limit rowBound hi [] := by
  refine ⟨?_, hbound, hbelow⟩
  have hnil : ((history db contractID functionID filter).filter fun r => start r && decide (hi ≤ r.ledger)) = [] := by
    rw [List.filter_eq_nil_iff]
    intro r hr hcond
    rw [Bool.and_eq_true, decide_eq_true_eq] at hcond
    exact absurd (hstart r hr hcond.1) (not_lt.mpr hcond.2)
  rw [hnil]
  rfl

theorem belowCursor_some_iff {c : Cursor} {r : TxRow} : belowCursor (some c) r = true ↔
    r.ledger < c.ledger.toNat ∨ r.ledger = c.ledger.toNat ∧ r.txHash < c.txHash := by
  rw [belowCursor, decide_eq_true_eq, Cursor.position, position_lt_iff]

/-- The row is owed to a page: it is below the cursor, or, for a scan that goes on, on a ledger below the cursor's. -/
def owed (filter : TransactionFilter) (before : Option Cursor) (r : TxRow) : Bool :=
  match before with
  | some c => if filter.continueScan then decide (r.ledger < c.ledger.toNat) else decide (r.position < c.position)
  | none => true

/-- The ledger the windows of a page start below. -/
def scanStart (db : Db) (contractID : Nat) (filter : TransactionFilter) (before : Option Cursor) : Nat :=
  match before with
  | some c => if filter.continueScan then c.ledger.toNat else c.ledger.toNat + 1
  | none => scanCeiling db contractID filter.to + 1

/-- A page of the windowed scan. -/
theorem pageByWindows_scans (contractID : Nat) (functionID : Option Nat) (filter : TransactionFilter) (h : db.Scannable)
    (before : Option Cursor) (limit : Nat) :
    ∃ rows continueLedger,
      Scans ((history db contractID functionID filter).filter (owed filter before)) limit (scanStart db contractID filter before)
        rows continueLedger ∧
      (∀ r ∈ rows, r ∈ history db contractID functionID filter) ∧
      pageByWindows db contractID functionID filter before limit =
        (expandArgs db (rows.filterMap (scanRow db))).map fun transactions => ⟨transactions, continueLedger⟩ := by
  -- a page with no rows, when there are none
  have empty : history db contractID functionID filter = [] → ∃ rows continueLedger,
      Scans ((history db contractID functionID filter).filter (owed filter before)) limit (scanStart db contractID filter before)
        rows continueLedger ∧
      (∀ r ∈ rows, r ∈ history db contractID functionID filter) ∧
      some ⟨[], 0⟩ = (expandArgs db (rows.filterMap (scanRow db))).map fun transactions => Page.mk transactions continueLedger := by
    intro hnil
    refine ⟨_, 0, Scans.whole rfl rfl, fun r hr => (List.mem_filter.mp (List.mem_of_mem_take hr)).1, ?_⟩
    rw [hnil, List.filter_nil, List.take_nil, List.filterMap_nil]
    rfl
  have hfloor : ∀ r ∈ history db contractID functionID filter, scanFloor db contractID filter.from ≤ r.ledger :=
    fun r hr => scanFloor_le hr
  unfold pageByWindows
  simp only
  by_cases hzero : scanFloor db contractID filter.from = 0
  · rw [if_pos hzero]
    exact empty (List.eq_nil_iff_forall_not_mem.mpr fun r hr => absurd hzero (scanFloor_pos h hr).ne')
  rw [if_neg hzero]
  have hpos := Nat.pos_of_ne_zero hzero
  cases before with
  | some c =>
    by_cases hcont : filter.continueScan = true
    · have hiff : ∀ r : TxRow, owed filter (some c) r = true ↔ r.ledger < c.ledger.toNat := by
        intro r
        simp only [owed, if_pos hcont, decide_eq_true_eq]
      have hs : Scanned db contractID functionID filter (owed filter (some c)) limit none c.ledger.toNat [] := by
        refine scanned_start (fun r _ hr => ?_) (fun r _ hr => ?_) (fun r _ hr => (hiff r).mpr (by omega))
        · exact_mod_cast (hiff r).mp hr
        · exact ((hiff r).mpr (by exact_mod_cast hr)).symm
      have hscan := pageBelow_scans h hs hpos hfloor
      simp only [scanStart, if_pos hcont]
      exact hscan
    · have hiff : ∀ r : TxRow, owed filter (some c) r = true ↔
          r.ledger < c.ledger.toNat ∨ r.ledger = c.ledger.toNat ∧ r.txHash < c.txHash := by
        intro r
        simp only [owed, if_neg hcont, decide_eq_true_eq, Cursor.position, position_lt_iff]
      have hs : Scanned db contractID functionID filter (owed filter (some c)) limit (some c) (c.ledger.toNat + 1) [] := by
        refine scanned_start (fun r _ hr => ?_) (fun r _ hr => ?_) (fun r _ hr => (hiff r).mpr (Or.inl (by omega)))
        · rcases (hiff r).mp hr with hlt | ⟨heq, -⟩ <;> omega
        · rw [Bool.eq_iff_iff, hiff r]
          simp only [withinBound, Bool.or_eq_true, decide_eq_true_eq]
          constructor
          · rintro (hlt | hlt)
            · exact Or.inl hlt
            · exact (Nat.lt_or_eq_of_le (by omega : r.ledger ≤ c.ledger.toNat)).imp_right fun heq => ⟨heq, hlt⟩
          · exact fun hbelow => hbelow.imp_right And.right
      have hscan := pageBelow_scans h hs hpos hfloor
      simp only [scanStart, if_neg hcont]
      exact hscan
  | none =>
    by_cases hceil : scanCeiling db contractID filter.to = 0
    · simp only [if_pos hceil]
      refine empty (List.eq_nil_iff_forall_not_mem.mpr fun r hr => ?_)
      have hle := le_scanCeiling hr
      have hone := (ledger_of_history h hr).1
      omega
    · simp only [if_neg hceil]
      have hs : Scanned db contractID functionID filter (owed filter none) limit none
          (scanCeiling db contractID filter.to + 1) [] := by
        refine scanned_start (fun r hr _ => ?_) (fun r _ _ => rfl) (fun r _ _ => rfl)
        have := le_scanCeiling hr
        omega
      exact pageBelow_scans h hs hpos hfloor

/-- What is owed to a page is what is below its cursor, if the cursor of a scan that goes on has the zero hash. -/
theorem owed_eq_belowCursor (filter : TransactionFilter) (before : Option Cursor)
    (hscan : filter.continueScan = true → ∀ c, before = some c → c.txHash = Bytes32.zero) (r : TxRow) :
    owed filter before r = belowCursor before r := by
  cases before with
  | none => rfl
  | some c =>
    rw [Bool.eq_iff_iff, belowCursor_some_iff]
    by_cases hcont : filter.continueScan = true
    · simp only [owed, if_pos hcont, decide_eq_true_eq, hscan hcont c rfl]
      exact (or_iff_left fun hr => Bytes32.not_lt_zero _ hr.2).symm
    · simp only [owed, if_neg hcont, decide_eq_true_eq, Cursor.position, position_lt_iff]

theorem scanStart_le_scanTop (h : db.Scannable) (contractID : Nat) (filter : TransactionFilter) (before : Option Cursor) :
    (scanStart db contractID filter before : Int) ≤ scanTop before := by
  cases before with
  | none =>
    have hlt := scanCeiling_lt h contractID filter.to
    simp only [scanStart, scanTop]
    omega
  | some c =>
    simp only [scanStart, scanTop]
    split_ifs <;> omega

/-- A page of the windowed scan. The cursor of a scan that goes on has the zero hash. -/
theorem pageByWindows_holds (h : db.Scannable) (before : Option Cursor) (limit : Nat)
    (hscan : filter.continueScan = true → ∀ c, before = some c → c.txHash = Bytes32.zero) :
    ∃ rows continueLedger,
      Holds ((history db contractID functionID filter).filter (belowCursor before)) limit (scanTop before) rows continueLedger ∧
      (∀ r ∈ rows, r ∈ history db contractID functionID filter) ∧
      pageByWindows db contractID functionID filter before limit =
        (expandArgs db (rows.filterMap (scanRow db))).map fun transactions => ⟨transactions, continueLedger⟩ := by
  obtain ⟨rows, continueLedger, hscans, hmem, hpage⟩ := pageByWindows_scans contractID functionID filter h before limit
  have howed : (history db contractID functionID filter).filter (owed filter before) =
      (history db contractID functionID filter).filter (belowCursor before) :=
    List.filter_congr fun r _ => owed_eq_belowCursor filter before hscan r
  rw [howed] at hscans
  exact ⟨rows, continueLedger, hscans.holds (scanStart_le_scanTop h contractID filter before), hmem, hpage⟩

end

end Soroscan

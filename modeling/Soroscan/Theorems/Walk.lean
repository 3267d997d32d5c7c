import Soroscan.Lemmas.Answers
import Soroscan.Theorems.Storable

/-!
# The walk over a contract's history

A client asks without a cursor, and then sends back each cursor it is given, until there is none. Whatever plan each request is
answered with, and whatever rows arrive in between, the walk ends, its pages descend strictly, and no row that was there at the
first request is missing.
-/

namespace Soroscan

/-! ## Rows that match -/

/-- A row of the contract that meets the filter: its function has the name asked for, and it was closed within the bounds. -/
structure Matches (d : Dicts) (raw : Bytes32) (filter : TransactionFilter) (r : TxRow) : Prop where
  contract : d.contracts.keyOf r.contractId = some raw
  function : filter.function ≠ [] → d.functions.keyOf r.function = some filter.function
  «from» : filter.from ≠ 0 → filter.from.micros ≤ r.ledgerClosedAt
  «to» : filter.to ≠ 0 → r.ledgerClosedAt ≤ filter.to.micros

/-- The time conditions of a statement. -/
theorem bounds_iff {filter : TransactionFilter} {r : TxRow} :
    ((filter.from.isZero || filter.from.micros ≤ r.ledgerClosedAt) = true ∧
      (filter.to.isZero || r.ledgerClosedAt ≤ filter.to.micros) = true) ↔
      (filter.from ≠ 0 → filter.from.micros ≤ r.ledgerClosedAt) ∧
        (filter.to ≠ 0 → r.ledgerClosedAt ≤ filter.to.micros) := by
  simp only [Instant.isZero, Bool.or_eq_true, decide_eq_true_eq, or_iff_not_imp_left, ne_eq]

theorem mem_history_iff_matches {db : Db} {raw : Bytes32} {contractID : Nat} {functionID : Option Nat}
    {filter : TransactionFilter} (hcontract : db.dicts.contracts.idOf raw = some contractID)
    (hfunction : FilterIDs db filter functionID) {r : TxRow} :
    r ∈ history db contractID functionID filter ↔ r ∈ db.transactions ∧ Matches db.dicts raw filter r := by
  have hid : r.contractId = contractID ↔ db.dicts.contracts.keyOf r.contractId = some raw := by
    rw [Dict.keyOf_eq_some_iff_idOf, hcontract, Option.some.injEq, eq_comm]
  rw [mem_history, hid]
  unfold filterPredicates
  rw [Bool.and_eq_true, Bool.and_eq_true, and_assoc, bounds_iff]
  rcases hfunction with ⟨hnone, rfl⟩ | ⟨hsome, id, hidOf, rfl⟩
  · constructor
    · rintro ⟨hr, hc, -, hfrom, hto⟩
      exact ⟨hr, hc, fun h => absurd hnone h, hfrom, hto⟩
    · rintro ⟨hr, hm⟩
      exact ⟨hr, hm.contract, rfl, hm.from, hm.to⟩
  · have hname : r.function = id ↔ db.dicts.functions.keyOf r.function = some filter.function := by
      rw [Dict.keyOf_eq_some_iff_idOf, hidOf, Option.some.injEq, eq_comm]
    simp only [decide_eq_true_eq, hname]
    constructor
    · rintro ⟨hr, hc, hf, hfrom, hto⟩
      exact ⟨hr, hc, fun _ => hf, hfrom, hto⟩
    · rintro ⟨hr, hm⟩
      exact ⟨hr, hm.contract, hm.function hsome, hm.from, hm.to⟩

/-- Rows were inserted, and with them ids that were not there. -/
structure Db.Inserts (db db' : Db) : Prop where
  transactions : db.transactions ⊆ db'.transactions
  dicts : db.dicts.Grows db'.dicts

theorem history_subset {db db' : Db} (h : db.Inserts db') {contractID : Nat} {functionID : Option Nat}
    {filter : TransactionFilter} {r : TxRow} (hr : r ∈ history db contractID functionID filter) :
    r ∈ history db' contractID functionID filter := by
  rw [mem_history] at hr ⊢
  exact ⟨h.transactions hr.1, hr.2⟩

theorem FilterIDs.inserts {db db' : Db} (h : db.Inserts db') {functionID : Option Nat} {filter : TransactionFilter}
    (hf : FilterIDs db filter functionID) : FilterIDs db' filter functionID := by
  rcases hf with hnone | ⟨hsome, id, hid, rfl⟩
  · exact Or.inl hnone
  · exact Or.inr ⟨hsome, id, h.dicts.functions.idOf hid, rfl⟩

/-! ## One request -/

section

variable {parseTime : Text → Option Instant}

/-- The order in which the time parameters are looked at does not matter for a request that is accepted. -/
theorem parseBounds_ok {toFirst : Bool} {q : Query} {bounds : Instant × Instant}
    (h : parseBounds parseTime toFirst q = .ok bounds) (toFirst' : Bool) : parseBounds parseTime toFirst' q = .ok bounds := by
  unfold parseBounds at h ⊢
  rcases hf : parseBound parseTime "from" q.from with e | f
  · rcases ht : parseBound parseTime "to" q.to with e' | t <;> rw [hf, ht] at h <;> cases toFirst <;> cases h
  · rcases ht : parseBound parseTime "to" q.to with e' | t
    · rw [hf, ht] at h
      cases toFirst <;> cases h
    · rw [hf, ht] at h
      cases toFirst <;> cases toFirst' <;> exact h

/-- A request that is accepted has a limit and bounds that were. -/
theorem parseQuery_parts {toFirst : Bool} {q : Query} {limit : Nat} {filter : TransactionFilter}
    (h : parseQuery parseTime toFirst q = .ok (limit, filter)) :
    parseLimit q.limit = .ok limit ∧ filter.continueScan = false ∧
      ∃ bounds, parseBounds parseTime toFirst q = .ok bounds := by
  unfold parseQuery at h
  simp only [bind, Except.bind, pure, Except.pure, throw, throwThe, MonadExceptOf.throw] at h
  rcases hl : parseLimit q.limit with e | l
  · simp only [hl] at h
    split_ifs at h
  · rcases hb : parseBounds parseTime toFirst q with e | bounds
    · simp only [hl, hb] at h
      split_ifs at h
    · simp only [hl, hb] at h
      split_ifs at h
      cases h
      exact ⟨rfl, rfl, bounds, rfl⟩

theorem parseQuery_ok {toFirst : Bool} {q : Query} {limit : Nat} {filter : TransactionFilter}
    (h : parseQuery parseTime toFirst q = .ok (limit, filter)) (toFirst' : Bool) :
    parseQuery parseTime toFirst' q = .ok (limit, filter) := by
  obtain ⟨-, -, bounds, hb⟩ := parseQuery_parts h
  unfold parseQuery at h ⊢
  rw [hb] at h
  rw [parseBounds_ok hb toFirst']
  exact h

theorem limit_pos {raw : Text} {limit : Nat} (h : parseLimit raw = .ok limit) : 1 ≤ limit := by
  unfold parseLimit at h
  split_ifs at h
  · cases h
    decide
  · split at h
    · cases h
    · split_ifs at h with hrange
      cases h
      omega

/-- A request of the walk: its cursor, and the filter with it. The cursor of a scan belongs to a function filter, and has the
zero hash. -/
structure Asks (q : Query) (filter : TransactionFilter) (before : Option Cursor) (continueScan : Bool) : Prop where
  cursor : withCursor q filter = .ok (before, { filter with continueScan })
  scan : continueScan = true → filter.function ≠ [] ∧ ∀ c, before = some c → c.txHash = Bytes32.zero

/-- A row is below a cursor that reaches further up. -/
theorem belowCursor_iff {before : Option Cursor} {r : TxRow} :
    belowCursor before r = true ↔ (r.position : WithTop Position) < reach before := by
  cases before with
  | none => exact iff_of_true rfl (WithTop.coe_lt_top _)
  | some c =>
    rw [belowCursor, decide_eq_true_eq, reach]
    exact WithTop.coe_lt_coe.symm

/-- Every request of the walk is answered, over the matching rows below its cursor. -/
theorem contractTransactions_answers {db : Db} (h : db.Readable) (attempt : Attempt) {q : Query} {limit : Nat}
    {filter : TransactionFilter} (hq : parseQuery parseTime attempt.toFirst q = .ok (limit, filter)) {raw : Bytes32}
    (hraw : decodeStrkey q.contractID strkeyVersionContract = some raw) {contractID : Nat} {functionID : Option Nat}
    (hcontract : db.dicts.contracts.idOf raw = some contractID) (hfunction : FilterIDs db filter functionID)
    {before : Option Cursor} {continueScan : Bool} (hasks : Asks q filter before continueScan) :
    ∃ response, contractTransactions parseTime attempt db q = .ok response ∧
      Answers db.dicts ((history db contractID functionID filter).filter (belowCursor before)) before
        (filter.function ≠ []) response := by
  obtain ⟨rows, page, hholds, hreads, hscans, hpage⟩ := transactionsByContract_holds { filter with continueScan }
    h attempt.fast hraw hcontract hfunction before (limit + 1) hasks.scan
  refine ⟨answer limit page, ?_, answers_of_holds ((history_descending h).filter _) (fun r hr => ?_) (fun r hr => ?_)
    (limit_pos (parseQuery_parts hq).1) hholds hreads hscans⟩
  · unfold contractTransactions
    rw [hq]
    simp only [bind, Except.bind, hasks.cursor, hpage, pure, Except.pure]
  · exact ledger_of_history h.scannable (List.mem_filter.mp hr).1
  · exact belowCursor_iff.mp (List.mem_filter.mp hr).2

end

/-! ## The walk -/

section

variable (parseTime : Text → Option Instant)

/-- The client's walk from a request on: it sends back each cursor it is given. The requests find the database in the given
states, one after another. -/
def walk (attempts : Nat → Attempt) (dbs : Nat → Db) (q : Query) : Nat → Nat → Text → Option (List Response)
  | 0, _, _ => none
  | fuel + 1, i, cursor =>
    match contractTransactions parseTime (attempts i) (dbs i) { q with cursor } with
    | .error _ => none
    | .ok response =>
      match response.nextCursor with
      | none => some [response]
      | some next => (walk attempts dbs q fuel (i + 1) next).map (response :: ·)

/-- What a walk from a cursor on has shown: every cursor it was given is accepted, it showed matching rows below the cursor, in
strictly descending order, and among them all that were there at its first request. -/
structure Walked (dbs : Nat → Db) (contractID : Nat) (functionID : Option Nat) (filter : TransactionFilter) (i : Nat)
    (before : Option Cursor) (responses : List Response) (rows : List TxRow) : Prop where
  cursors : ∀ response ∈ responses, ∀ next, response.nextCursor = some next → (parseCursor next).isSome = true
  shows : List.Forall₂ (fun o r => ∃ j, r ∈ history (dbs j) contractID functionID filter ∧ Shows (dbs j).dicts o r)
    (responses.flatMap Response.transactions) rows
  descending : Descending TxRow.position rows
  below : ∀ r ∈ rows, (r.position : WithTop Position) < reach before
  all : ∀ r ∈ history (dbs i) contractID functionID filter, (r.position : WithTop Position) < reach before → r ∈ rows

/-- What a client expects of its walk over a contract, from a request without a cursor: the walk ends, every cursor it is given is
accepted, and its pages show matching rows alone, each once, in strictly descending order, and every one that was there at the
first request. -/
def WalksAll (attempts : Nat → Attempt) (dbs : Nat → Db) (q : Query) (raw : Bytes32) (filter : TransactionFilter) : Prop :=
  ∃ fuel responses rows, walk parseTime attempts dbs q fuel 0 [] = some responses ∧
    (∀ response ∈ responses, ∀ next, response.nextCursor = some next → (parseCursor next).isSome = true) ∧
    List.Forall₂ (fun o r => ∃ j, r ∈ (dbs j).transactions ∧ Matches (dbs j).dicts raw filter r ∧ Shows (dbs j).dicts o r)
      (responses.flatMap Response.transactions) rows ∧
    rows.Nodup ∧ Descending TxRow.position rows ∧
    ∀ r ∈ (dbs 0).transactions, Matches (dbs 0).dicts raw filter r → r ∈ rows

end

section

variable {parseTime : Text → Option Instant} {attempts : Nat → Attempt} {dbs : Nat → Db} {contractID : Nat}
  {functionID : Option Nat} {filter : TransactionFilter}

/-- A walk that ends with its first answer. -/
theorem walked_last {i : Nat} {before : Option Cursor} {response : Response} (hd : (dbs i).Readable)
    (hnext : response.nextCursor = none)
    (hshows : List.Forall₂ (Shows (dbs i).dicts) response.transactions
      ((history (dbs i) contractID functionID filter).filter (belowCursor before))) :
    Walked dbs contractID functionID filter i before [response]
      ((history (dbs i) contractID functionID filter).filter (belowCursor before)) where
  cursors response' hresponse next hsome := by
    rw [List.mem_singleton.mp hresponse, hnext] at hsome
    cases hsome
  shows := by
    rw [List.flatMap_singleton]
    exact (forall₂_and_right hshows fun r hr => (List.mem_filter.mp hr).1).imp fun _ _ h => ⟨i, h⟩
  descending := (history_descending hd).filter _
  below r hr := belowCursor_iff.mp (List.mem_filter.mp hr).2
  all r hr hbelow := List.mem_filter.mpr ⟨hr, belowCursor_iff.mpr hbelow⟩

/-- A walk that goes on behind its first answer. -/
theorem walked_more {i : Nat} {before : Option Cursor} {response : Response} {next : Text} {c : Cursor}
    {continueScan : Bool} {responses : List Response} {rows : List TxRow} (hd : (dbs i).Readable)
    (hinserts : (dbs i).Inserts (dbs (i + 1))) (hnext : response.nextCursor = some next)
    (hparse : parseCursor next = some (c, continueScan)) (hbelow : (c.position : WithTop Position) < reach before)
    (hshows : List.Forall₂ (Shows (dbs i).dicts) response.transactions
      (((history (dbs i) contractID functionID filter).filter (belowCursor before)).filter fun r =>
        decide (c.position ≤ r.position)))
    (hrest : Walked dbs contractID functionID filter (i + 1) (some c) responses rows) :
    Walked dbs contractID functionID filter i before (response :: responses)
      (((history (dbs i) contractID functionID filter).filter (belowCursor before)).filter
        (fun r => decide (c.position ≤ r.position)) ++ rows) := by
  have hpage : ∀ r ∈ ((history (dbs i) contractID functionID filter).filter (belowCursor before)).filter fun r =>
      decide (c.position ≤ r.position), r ∈ history (dbs i) contractID functionID filter ∧
        (r.position : WithTop Position) < reach before ∧ c.position ≤ r.position := by
    intro r hr
    obtain ⟨hr, hle⟩ := List.mem_filter.mp hr
    obtain ⟨hr, hlt⟩ := List.mem_filter.mp hr
    exact ⟨hr, belowCursor_iff.mp hlt, of_decide_eq_true hle⟩
  have hlower : ∀ r ∈ rows, r.position < c.position := fun r hr => WithTop.coe_lt_coe.mp (hrest.below r hr)
  constructor
  · intro response' hresponse next' hsome
    rcases List.mem_cons.mp hresponse with rfl | hresponse
    · rw [hnext] at hsome
      cases hsome
      rw [hparse]
      rfl
    · exact hrest.cursors response' hresponse next' hsome
  · rw [List.flatMap_cons]
    exact List.rel_append ((forall₂_and_right hshows fun r hr => (hpage r hr).1).imp fun _ _ h => ⟨i, h⟩) hrest.shows
  · refine (((history_descending hd).filter _).filter _).append hrest.descending fun a ha b hb => ?_
    exact lt_of_lt_of_le (hlower b hb) (hpage a ha).2.2
  · intro r hr
    rcases List.mem_append.mp hr with hr | hr
    · exact (hpage r hr).2.1
    · exact lt_trans (hrest.below r hr) hbelow
  · intro r hr hlt
    rw [List.mem_append, List.mem_filter, List.mem_filter, decide_eq_true_eq]
    by_cases hle : c.position ≤ r.position
    · exact Or.inl ⟨⟨hr, belowCursor_iff.mpr hlt⟩, hle⟩
    · exact Or.inr (hrest.all r (history_subset hinserts hr) (WithTop.coe_lt_coe.mpr (not_le.mp hle)))

/-- From every request on, the walk ends: each cursor it is given is further down. -/
theorem walk_ends (hreadable : ∀ i, (dbs i).Readable) (hinserts : ∀ i, (dbs i).Inserts (dbs (i + 1))) {q : Query}
    {limit : Nat} (hq : ∀ i, parseQuery parseTime (attempts i).toFirst q = .ok (limit, filter)) {raw : Bytes32}
    (hraw : decodeStrkey q.contractID strkeyVersionContract = some raw)
    (hcontract : ∀ i, (dbs i).dicts.contracts.idOf raw = some contractID)
    (hfunction : ∀ i, FilterIDs (dbs i) filter functionID) (before : Option Cursor) (i : Nat) (cursor : Text)
    (continueScan : Bool) (hasks : Asks { q with cursor } filter before continueScan) :
    ∃ fuel responses rows, walk parseTime attempts dbs q fuel i cursor = some responses ∧
      Walked dbs contractID functionID filter i before responses rows := by
  induction hreach : reach before using WellFoundedLT.induction generalizing before i cursor continueScan with
  | _ top ih =>
    obtain ⟨response, hresponse, hanswers⟩ := contractTransactions_answers (hreadable i) (attempts i)
      (q := { q with cursor }) (hq i) hraw (hcontract i) (hfunction i) hasks
    cases hanswers with
    | last hnext hshows =>
      refine ⟨1, _, _, ?_, walked_last (hreadable i) hnext hshows⟩
      simp only [walk, hresponse, hnext]
    | more next c continueScan' hnext hparse hscan hbelow hshows =>
      have hnil : next ≠ [] := by
        rintro rfl
        have hnone : parseCursor [] = none := by decide
        rw [hnone] at hparse
        cases hparse
      have hguard : ¬(continueScan' && decide (filter.function = [])) = true := by
        rw [Bool.and_eq_true, decide_eq_true_eq]
        exact fun hbad => (hscan hbad.1).1 hbad.2
      have hasks' : Asks { q with cursor := next } filter (some c) continueScan' := by
        refine ⟨?_, fun hc => ⟨(hscan hc).1, fun c' hc' => ?_⟩⟩
        · simp only [withCursor, if_neg hnil, hparse, if_neg hguard]
        · cases hc'
          exact (hscan hc).2
      obtain ⟨fuel, responses, rows, hwalk, hwalked⟩ :=
        ih (c.position : WithTop Position) (hreach ▸ hbelow) (some c) (i + 1) next continueScan' hasks' rfl
      refine ⟨fuel + 1, _, _, ?_, walked_more (hreadable i) (hinserts i) hnext hparse hbelow hshows hwalked⟩
      simp only [walk, hresponse, hnext, hwalk, Option.map_some]

/-- The walk over the history of a known contract, where every row names a function of the dictionary and has well-formed
arguments, with any limit and filter that the endpoint accepts, any plan at each request, and any rows inserted in between: it
ends, every cursor it is given is accepted, and its pages together show, each once and in strictly descending order, matching
rows alone, and every one that was there at the first request. -/
theorem walk_complete (hreadable : ∀ i, (dbs i).Readable) (hinserts : ∀ i, (dbs i).Inserts (dbs (i + 1))) (q : Query)
    {limit : Nat} (hq : parseQuery parseTime (attempts 0).toFirst q = .ok (limit, filter)) {raw : Bytes32}
    (hraw : decodeStrkey q.contractID strkeyVersionContract = some raw) (hcontract : raw ∈ (dbs 0).dicts.contracts.keys)
    (hfunction : filter.function ≠ [] → filter.function ∈ (dbs 0).dicts.functions.keys) :
    WalksAll parseTime attempts dbs q raw filter := by
  obtain ⟨contractID, hid⟩ := Dict.mem_keys_iff.mp hcontract
  have hids : ∀ i, (dbs i).dicts.contracts.idOf raw = some contractID := by
    intro i
    induction i with
    | zero => exact hid
    | succ i ih => exact (hinserts i).dicts.contracts.idOf ih
  have hfirst : ∃ functionID, FilterIDs (dbs 0) filter functionID := by
    by_cases hnone : filter.function = []
    · exact ⟨none, Or.inl ⟨hnone, rfl⟩⟩
    · obtain ⟨id, hfid⟩ := Dict.mem_keys_iff.mp (hfunction hnone)
      exact ⟨some id, Or.inr ⟨hnone, id, hfid, rfl⟩⟩
  obtain ⟨functionID, hf⟩ := hfirst
  have hfs : ∀ i, FilterIDs (dbs i) filter functionID := by
    intro i
    induction i with
    | zero => exact hf
    | succ i ih => exact ih.inserts (hinserts i)
  have hasks : Asks { q with cursor := [] } filter none filter.continueScan := by
    refine ⟨rfl, fun hc => ?_⟩
    rw [(parseQuery_parts hq).2.1] at hc
    cases hc
  obtain ⟨fuel, responses, rows, hwalk, hwalked⟩ :=
    walk_ends hreadable hinserts (fun i => parseQuery_ok hq _) hraw hids hfs none 0 [] _ hasks
  refine ⟨fuel, responses, rows, hwalk, hwalked.cursors, ?_, hwalked.descending.nodup, hwalked.descending, ?_⟩
  · refine hwalked.shows.imp fun o r hshown => ?_
    obtain ⟨j, hr, hshows⟩ := hshown
    obtain ⟨hr, hm⟩ := (mem_history_iff_matches (hids j) (hfs j)).mp hr
    exact ⟨j, hr, hm, hshows⟩
  · intro r hr hm
    exact hwalked.all r ((mem_history_iff_matches hid hf).mpr ⟨hr, hm⟩) (WithTop.coe_lt_top _)

end

/-! ## Two contracts called -/

/-- A database with the contracts of the zero hash and of the greatest one, ids 1 and 2, the functions `set` and `get`, and the
given rows. -/
def calledBy (rows : List TxRow) : Db where
  dicts := ⟨(Dict.empty.propose Bytes32.zero).propose (Bytes32.fill 255), (Dict.empty.propose [115, 101, 116]).propose [103, 101, 116],
    Dict.empty⟩
  transactions := rows
  checkpoints := fun _ => none

theorem calledBy_readable {rows : List TxRow} (hfunctions : rows.all fun r => decide (r.function = 1 ∨ r.function = 2))
    (hargs : rows.all fun r => r.args.isNone) (hpositions : (rows.map TxRow.position).Nodup)
    (hledgers : rows.all fun r => decide (1 ≤ r.ledger ∧ r.ledger < 2 ^ 31)) : (calledBy rows).Readable where
  functions r hr := by
    rcases of_decide_eq_true (List.all_eq_true.mp hfunctions r hr) with h | h <;> rw [h]
    · exact ⟨[115, 101, 116], rfl⟩
    · exact ⟨[103, 101, 116], rfl⟩
  args r hr v hv := by
    rw [Option.isNone_iff_eq_none.mp (List.all_eq_true.mp hargs r hr)] at hv
    cases hv
  positions contractID := hpositions.sublist (List.filter_sublist.map _)
  ledgers r hr := of_decide_eq_true (List.all_eq_true.mp hledgers r hr)

/-- What is stored at the first request: three calls of `set` on the first contract, two of them in one ledger, a call of `get`,
and a call of the second contract. -/
def earlyCalls : List TxRow :=
  [⟨1, Bytes32.fill 2, 7, 70, 1, none, 100⟩, ⟨1, Bytes32.fill 3, 7, 70, 1, none, 100⟩, ⟨1, Bytes32.fill 4, 6, 60, 2, none, 100⟩,
   ⟨2, Bytes32.fill 5, 6, 60, 1, none, 100⟩, ⟨1, Bytes32.fill 6, 5, 50, 1, none, 100⟩]

/-- The database at each request: after the first one a call above every row and one below every row have come in. -/
def callsArrive : Nat → Db
  | 0 => calledBy earlyCalls
  | _ + 1 => calledBy (earlyCalls ++ [⟨1, Bytes32.fill 7, 9, 90, 1, none, 100⟩, ⟨1, Bytes32.fill 8, 3, 30, 1, none, 100⟩])

theorem callsArrive_readable (i : Nat) : (callsArrive i).Readable := by
  cases i with
  | zero => exact calledBy_readable (by decide) (by decide) (by decide) (by decide)
  | succ i => exact calledBy_readable (by decide) (by decide) (by decide) (by decide)

theorem callsArrive_inserts (i : Nat) : (callsArrive i).Inserts (callsArrive (i + 1)) := by
  cases i with
  | zero => exact ⟨List.subset_append_left _ _, Dicts.Grows.refl _⟩
  | succ i => exact ⟨List.Subset.refl _, Dicts.Grows.refl _⟩

/-- A request for the calls of the zero contract's function `set`, one a page. -/
def setCalls : Query := ⟨contractStrkey Bytes32.zero, ['1'], [115, 101, 116], [], [], []⟩

/-- The walk over the calls of `set`, one a page, while others come in, and every other request misses its deadline. -/
theorem walk_complete_arriving :
    WalksAll (fun _ => none) (fun i => ⟨i % 2 = 0, false⟩) callsArrive setCalls Bytes32.zero ⟨[115, 101, 116], 0, 0, false⟩ := by
  have hpattern : contractPattern (contractStrkey Bytes32.zero) = true := by decide +kernel
  have hquery : parseQuery (fun _ => none) false setCalls = .ok (1, ⟨[115, 101, 116], 0, 0, false⟩) := by
    unfold parseQuery setCalls
    simp only [hpattern]
    rfl
  have hraw : decodeStrkey setCalls.contractID strkeyVersionContract = some Bytes32.zero :=
    decodeStrkey_contractStrkey Bytes32.zero
  have hcontract : Bytes32.zero ∈ ((Dict.empty.propose Bytes32.zero).propose (Bytes32.fill 255)).keys := by
    simp only [Dict.mem_propose_keys, or_true, true_or]
  have hfunction : [115, 101, 116] ∈ ((Dict.empty.propose ([115, 101, 116] : Bytes)).propose [103, 101, 116]).keys := by
    simp only [Dict.mem_propose_keys, or_true, true_or]
  have hwalk := @walk_complete (fun _ => none) (fun i => ⟨i % 2 = 0, false⟩) callsArrive ⟨[115, 101, 116], 0, 0, false⟩
    callsArrive_readable callsArrive_inserts setCalls 1
  exact hwalk hquery hraw hcontract fun _ => hfunction

/-! ## Rows no walk shows -/

/-- The rows of one contract are at distinct positions, and the ledgers are positive ones of 31 bits. -/
def Db.Apart (db : Db) : Prop :=
  (∀ contractID, ((db.transactions.filter fun r => r.contractId = contractID).map TxRow.position).Nodup) ∧
    ∀ r ∈ db.transactions, 1 ≤ r.ledger ∧ r.ledger < 2 ^ 31

theorem Db.apart_of_single {d : Dicts} {r : TxRow} {checkpoints : Text → Option Nat} (h : 1 ≤ r.ledger ∧ r.ledger < 2 ^ 31) :
    (Db.mk d [r] checkpoints).Apart := by
  refine ⟨fun contractID => ?_, fun r' hr' => ?_⟩
  · have hsub : (([r].filter fun r => r.contractId = contractID).map TxRow.position).Sublist ([r].map TxRow.position) :=
      List.filter_sublist.map _
    exact (List.nodup_singleton _).sublist hsub
  · rw [List.mem_singleton.mp hr']
    exact h

/-- One call of the zero contract's function `0a`. -/
def digitNamed : Db where
  dicts := ⟨Dict.empty.propose Bytes32.zero, Dict.empty.propose [48, 97], Dict.empty⟩
  transactions := [⟨1, Bytes32.zero, 7, 0, 1, none, 100⟩]
  checkpoints := fun _ => none

/-- One call of the zero contract, with a function id that is not in the dictionary. -/
def nameless : Db where
  dicts := ⟨Dict.empty.propose Bytes32.zero, Dict.empty, Dict.empty⟩
  transactions := [⟨1, Bytes32.zero, 7, 0, 1, none, 100⟩]
  checkpoints := fun _ => none

/-- A walk whose every answer is refused shows nothing. -/
theorem not_walksAll_of_refused {parseTime : Text → Option Instant} {attempts : Nat → Attempt} {dbs : Nat → Db} {q : Query}
    {raw : Bytes32} {filter : TransactionFilter} {e : ApiError}
    (h : contractTransactions parseTime (attempts 0) (dbs 0) { q with cursor := [] } = .error e) :
    ¬WalksAll parseTime attempts dbs q raw filter := by
  rintro ⟨fuel, responses, rows, hwalk, -⟩
  cases fuel with
  | zero => cases hwalk
  | succ fuel => simp only [walk, h, reduceCtorEq] at hwalk

/-- A walk whose first answer is empty, and the last one, shows no row that was there. -/
theorem not_walksAll_of_empty {parseTime : Text → Option Instant} {attempts : Nat → Attempt} {dbs : Nat → Db} {q : Query}
    {raw : Bytes32} {filter : TransactionFilter}
    (h : contractTransactions parseTime (attempts 0) (dbs 0) { q with cursor := [] } = .ok ⟨[], none⟩) {r : TxRow}
    (hr : r ∈ (dbs 0).transactions) (hm : Matches (dbs 0).dicts raw filter r) : ¬WalksAll parseTime attempts dbs q raw filter := by
  rintro ⟨fuel, responses, rows, hwalk, -, hshows, -, -, hall⟩
  cases fuel with
  | zero => cases hwalk
  | succ fuel =>
    simp only [walk, h, Option.some.injEq] at hwalk
    subst hwalk
    cases hshows
    exact List.not_mem_nil (hall r hr hm)

/-- Neither the calls of a function whose name the endpoint takes for malformed nor those with a function id of no name are shown
by any walk, whichever plan answers. -/
theorem walk_misses_calls :
    (digitNamed.Apart ∧ Bytes32.zero ∈ digitNamed.dicts.contracts.keys ∧ [48, 97] ∈ digitNamed.dicts.functions.keys ∧
      ∀ fast, ¬WalksAll (fun _ => none) (fun _ => ⟨fast, false⟩) (fun _ => digitNamed)
        ⟨contractStrkey Bytes32.zero, ['1'], [48, 97], [], [], []⟩ Bytes32.zero ⟨[48, 97], 0, 0, false⟩) ∧
    (nameless.Apart ∧ Bytes32.zero ∈ nameless.dicts.contracts.keys ∧
      ∀ fast, ¬WalksAll (fun _ => none) (fun _ => ⟨fast, false⟩) (fun _ => nameless)
        ⟨contractStrkey Bytes32.zero, ['1'], [], [], [], []⟩ Bytes32.zero ⟨[], 0, 0, false⟩) := by
  have hpattern : contractPattern (contractStrkey Bytes32.zero) = true := by decide +kernel
  have hraw : decodeStrkey (contractStrkey Bytes32.zero) strkeyVersionContract = some Bytes32.zero :=
    decodeStrkey_contractStrkey Bytes32.zero
  refine ⟨⟨Db.apart_of_single (by decide), Dict.mem_propose_keys.mpr (Or.inr rfl), Dict.mem_propose_keys.mpr (Or.inr rfl),
    fun fast => ?_⟩, Db.apart_of_single (by decide), Dict.mem_propose_keys.mpr (Or.inr rfl), fun fast => ?_⟩
  · refine not_walksAll_of_refused (e := badRequest "malformed function name") ?_
    unfold contractTransactions parseQuery
    simp only [hpattern]
    rfl
  · refine not_walksAll_of_empty (r := ⟨1, Bytes32.zero, 7, 0, 1, none, 100⟩) ?_ (List.mem_singleton.mpr rfl) ?_
    · unfold contractTransactions parseQuery transactionsByContract
      simp only [hpattern, hraw]
      rfl
    · exact ⟨by decide, fun h => absurd rfl h, fun h => absurd rfl h, fun h => absurd rfl h⟩

end Soroscan

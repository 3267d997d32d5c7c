import Soroscan.Lemmas.Sequences
import Soroscan.Lemmas.Nulls

/-!
# Which rows the columns accept

A row is accepted when every column takes its value, whatever ids it is written with. A call with a row that is not accepted
is never committed; a call whose rows all are fails only for want of an id or because of the database itself.
-/

namespace Soroscan

/-- A failure that the rows of the call bring about by themselves, so that the next try of the same rows meets it again. -/
def SaveError.content : SaveError → Bool
  | .contractID => true
  | .args => true
  | .rejected _ => true
  | .noId _ => false
  | .database _ => false

/-- Every column accepts the row: its contract id and its arguments can be read, its function name is text, and the batch
statement can write it with any ids. -/
def Accepted (acceptsTime : Time → Bool) (row : InvocationRow) : Prop :=
  ∃ p, prepareRow row = .ok p ∧ acceptsText row.function = true ∧ ∀ ids, (txRow acceptsTime ids p).isSome = true

/-- The function names of a dictionary are text. -/
def NamesAreText (d : Dicts) : Prop := ∀ name ∈ d.functions.keys, acceptsText name = true

section

variable {acceptsTime : Time → Bool}

/-! ## One row -/

/-- The values of a row that the batch statement can reject. -/
structure Fits (acceptsTime : Time → Bool) (p : PreparedRow) : Prop where
  ledger : p.row.ledger.toNat < 2 ^ 31
  closedAt : acceptsTime p.row.closedAt = true
  args : ∀ v, p.parsedArgs = some v → hasNull v = false

theorem ok_of_reads {row : InvocationRow} {p : PreparedRow} (h : p.Reads row) {v : Json} (hv : p.parsedArgs = some v) :
    v.Ok := by
  have hargs := h.args_eq
  rw [hv] at hargs
  unfold parsedArgsOf at hargs
  split_ifs at hargs
  · cases hargs
  · split at hargs
    · cases hargs
    · cases hargs
    · rename_i v' _ hparse
      cases hargs
      exact Json.parse_ok hparse

/-- The arguments of a row that is written are those that were read, with a placeholder for each address. -/
theorem args_of_txRow {ids : Store} {row : InvocationRow} {p : PreparedRow} {r : TxRow} (hp : p.Reads row)
    (h : txRow acceptsTime ids p = some r) : r.args = p.parsedArgs.map (rewriteAddresses ids.addressIDs) := by
  unfold txRow at h
  split_ifs at h
  split at h
  · rename_i hnone
    cases h
    rw [hnone]
    rfl
  · rename_i v hv
    obtain ⟨stored, hstored, rfl⟩ := Option.map_eq_some_iff.mp h
    obtain ⟨hparse, -⟩ := Option.filter_eq_some_iff.mp hstored
    rw [Json.parse_marshal (rewriteAddresses_ok _ v (ok_of_reads hp hv))] at hparse
    rw [hv, Option.map_some, txRow.row]
    exact hparse.symm

/-- The ids a row is written with do not matter for its being accepted. -/
theorem txRow_isSome_iff {row : InvocationRow} {p : PreparedRow} (h : p.Reads row) (ids : Store) :
    (txRow acceptsTime ids p).isSome = true ↔ Fits acceptsTime p := by
  unfold txRow
  split_ifs with hcols
  · cases hargs : p.parsedArgs with
    | none => exact iff_of_true rfl ⟨hcols.1, hcols.2, fun v hv => by rw [hargs] at hv; cases hv⟩
    | some v =>
      simp only
      rw [jsonb_rewriteAddresses (ok_of_reads h hargs)]
      split_ifs with hnull
      · refine iff_of_false (by simp) fun hfits => ?_
        rw [hfits.args v hargs] at hnull
        cases hnull
      · refine iff_of_true rfl ⟨hcols.1, hcols.2, fun v' hv' => ?_⟩
        rw [hargs] at hv'
        cases hv'
        exact Bool.eq_false_iff.mpr hnull
  · exact iff_of_false (by simp) fun hfits => hcols ⟨hfits.ledger, hfits.closedAt⟩

/-- A row that was read is accepted when its name is text and its other values fit. -/
theorem accepted_iff {row : InvocationRow} {p : PreparedRow} (h : prepareRow row = .ok p) :
    Accepted acceptsTime row ↔ acceptsText row.function = true ∧ Fits acceptsTime p := by
  constructor
  · rintro ⟨p', hp', hname, hall⟩
    rw [h] at hp'
    cases hp'
    exact ⟨hname, (txRow_isSome_iff (reads_of_prepareRow h) Store.new).mp (hall Store.new)⟩
  · rintro ⟨hname, hfits⟩
    exact ⟨p, h, hname, fun ids => (txRow_isSome_iff (reads_of_prepareRow h) ids).mpr hfits⟩

/-- Rows that are accepted can be read. -/
theorem prepare_of_accepted {rows : List InvocationRow} (h : ∀ row ∈ rows, Accepted acceptsTime row) :
    ∃ ps, rows.mapM prepareRow = .ok ps :=
  exists_mapM_ok fun row hrow => (h row hrow).imp fun _ hp => hp.1

theorem accepted_of_prepared {rows : List InvocationRow} {ps : List PreparedRow} (hps : rows.mapM prepareRow = .ok ps)
    (h : ∀ row ∈ rows, Accepted acceptsTime row) {p : PreparedRow} (hp : p ∈ ps) :
    acceptsText p.row.function = true ∧ ∀ ids, (txRow acceptsTime ids p).isSome = true := by
  obtain ⟨row, hrow, hread⟩ := exists_of_forall₂_right (forall₂_of_mapM_ok hps) hp
  obtain ⟨p', hp', hname, hall⟩ := h row hrow
  rw [hread] at hp'
  cases hp'
  rw [(reads_of_prepareRow hread).row_eq]
  exact ⟨hname, hall⟩

/-! ## A committed call -/

/-- The function names of a committed call's rows are text: those that were missing were checked, and the others are in the
dictionary. -/
theorem Committed.rows_accepted {st : Store} {db : Db} {call : Call} {ledgerSeq : BitVec 32} {rows : List InvocationRow}
    {ps : List PreparedRow} {d : Dicts} {written : List TxRow} {r : Saved}
    (h : Committed acceptsTime st db call ledgerSeq rows ps d written r) (hsound : st.Sound db.dicts)
    (hnames : NamesAreText db.dicts) : ∀ row ∈ rows, Accepted acceptsTime row := by
  intro row hrow
  obtain ⟨p, hp, hread⟩ := exists_of_forall₂_left (forall₂_of_mapM_ok h.prepared) hrow
  have hreads := reads_of_prepareRow hread
  refine (accepted_iff hread).mpr ⟨?_, ?_⟩
  · rw [← hreads.row_eq]
    cases hc : st.functions p.row.function with
    | some id => exact hnames _ (Dict.mem_keys_iff.mpr ⟨id, hsound.functions _ _ hc⟩)
    | none => exact h.resolved.names _ (mem_missingFunctions.mpr ⟨mem_wantedFunctions.mpr ⟨p, hp, rfl⟩, hc⟩)
  · obtain ⟨r', -, hr'⟩ := exists_of_forall₂_left (forall₂_of_mapM_some h.accepted) hp
    exact (txRow_isSome_iff hreads _).mp (by rw [hr']; rfl)

theorem Resolved.namesAreText {st : Store} {call : Call} {d d' : Dicts} {ps : List PreparedRow}
    (h : Resolved st call d ps d') (hnames : NamesAreText d) : NamesAreText d' := by
  intro name hname
  have hok : (Dict.insertAll smallserialMax d.functions (missingFunctions st call ps)).2 = true := by rw [h.functions]
  have hmem := Dict.mem_insertAll_keys (k := name) hok
  rw [h.functions] at hmem
  exact (hmem.mp hname).elim (hnames name) (h.names name)

/-! ## What any call leaves of the dictionaries -/

theorem dicts_rows_eq {d d' : Dicts} (hc : d'.contracts.rows = d.contracts.rows) (hf : d'.functions.rows = d.functions.rows)
    (ha : d'.argAddresses.rows = d.argAddresses.rows) : d.Grows d' ∧ d'.functions.keys = d.functions.keys := by
  refine ⟨⟨?_, ?_, ?_⟩, ?_⟩
  · rw [Dict.Grows, hc]
    exact List.Subset.refl _
  · rw [Dict.Grows, hf]
    exact List.Subset.refl _
  · rw [Dict.Grows, ha]
    exact List.Subset.refl _
  · rw [Dict.keys, Dict.keys, hf]

/-- The dictionaries and the caches after a call, committed or not. -/
structure Kept (st : Store) (d : Dicts) (r : Saved) : Prop where
  grows : d.Grows r.db.dicts
  sound : st.Sound d → r.store.Sound r.db.dicts
  names : NamesAreText d → NamesAreText r.db.dicts

theorem kept_saveLedger (acceptsTime : Time → Bool) (st : Store) (db : Db) (call : Call) (ledgerSeq : BitVec 32)
    (rows : List InvocationRow) : Kept st db.dicts (saveLedger acceptsTime st db call ledgerSeq rows) := by
  rcases saveLedger_cases acceptsTime st db call ledgerSeq rows with hf | ⟨ps, d, written, hc⟩
  · obtain ⟨hgrows, hkeys⟩ := dicts_rows_eq hf.contracts hf.functions hf.argAddresses
    refine ⟨hgrows, fun hsound => ?_, fun hnames => ?_⟩
    · rw [hf.store]
      exact hsound.grows hgrows
    · rw [NamesAreText, hkeys]
      exact hnames
  · refine ⟨?_, fun hsound => ?_, fun hnames => ?_⟩
    · rw [hc.dicts]
      exact hc.resolved.grows
    · rw [hc.store, hc.dicts]
      exact hsound.merged hc.prepared hc.resolved
    · rw [hc.dicts]
      exact hc.resolved.namesAreText hnames

/-! ## The rows that are there -/

/-- Every stored row has a function of the dictionary and well-formed arguments, or none. -/
structure Db.WellWritten (db : Db) : Prop where
  functions : ∀ r ∈ db.transactions, ∃ name, db.dicts.functions.keyOf r.function = some name
  args : ∀ r ∈ db.transactions, ∀ v, r.args = some v → v.Ok

theorem ok_of_jsonb {encoded : Text} {v : Json} (h : jsonb encoded = some v) : v.Ok := by
  obtain ⟨hparse, -⟩ := Option.filter_eq_some_iff.mp h
  exact Json.parse_ok hparse

theorem ok_of_txRow {ids : Store} {p : PreparedRow} {r : TxRow} (h : txRow acceptsTime ids p = some r) {v : Json}
    (hv : r.args = some v) : v.Ok := by
  unfold txRow at h
  split_ifs at h
  split at h
  · cases h
    cases hv
  · obtain ⟨args, hargs, rfl⟩ := Option.map_eq_some_iff.mp h
    cases hv
    exact ok_of_jsonb hargs

/-- Every call keeps the stored rows well written. -/
theorem wellWritten_saveLedger (acceptsTime : Time → Bool) {st : Store} {db : Db} (call : Call) (ledgerSeq : BitVec 32)
    (rows : List InvocationRow) (hsound : st.Sound db.dicts) (h : db.WellWritten) :
    (saveLedger acceptsTime st db call ledgerSeq rows).db.WellWritten := by
  have hkept := kept_saveLedger acceptsTime st db call ledgerSeq rows
  have hold : ∀ r ∈ db.transactions, ∃ name,
      (saveLedger acceptsTime st db call ledgerSeq rows).db.dicts.functions.keyOf r.function = some name := fun r hr =>
    (h.functions r hr).imp fun name hname => hkept.grows.functions.keyOf hname
  rcases saveLedger_cases acceptsTime st db call ledgerSeq rows with hf | ⟨ps, d, written, hc⟩
  · constructor
    · rw [hf.transactions]
      exact hold
    · rw [hf.transactions]
      exact h.args
  · have hnew : ∀ r ∈ written, ∃ p ∈ ps, txRow acceptsTime (st.merged call d ps) p = some r := fun r hr =>
      exists_of_forall₂_right (forall₂_of_mapM_some hc.accepted) hr
    constructor
    · intro r hr
      rw [hc.transactions] at hr
      rcases mem_foldl_insertRow hr with hr | hr
      · exact hold r hr
      · obtain ⟨p, hp, hrow⟩ := hnew r hr
        obtain ⟨args, rfl⟩ := txRow_eq hrow
        obtain ⟨id, hid, hidOf⟩ := merged_functions hsound hc.resolved hp
        refine ⟨p.row.function, ?_⟩
        rw [hc.dicts, txRow.row, hid, Option.getD_some]
        exact Dict.keyOf_eq_some_iff_idOf.mpr hidOf
    · intro r hr v hv
      rw [hc.transactions] at hr
      rcases mem_foldl_insertRow hr with hr | hr
      · exact h.args r hr v hv
      · obtain ⟨p, -, hrow⟩ := hnew r hr
        exact ok_of_txRow hrow hv

/-- What every stored row is as `SaveLedger` wrote it: besides, its arguments are not `null`, and its ledger is one the column
holds. -/
structure Db.Stored (db : Db) : Prop extends db.WellWritten where
  notNull : ∀ r ∈ db.transactions, r.args ≠ some .null
  ledgers : ∀ r ∈ db.transactions, r.ledger < 2 ^ 31

theorem not_content_proposeKeys {κ : Type} [DecidableEq κ] {call : Call} {stage : Stage} {limit : Nat} {d : Dict κ}
    {keys : List κ} {e : SaveError} (h : (proposeKeys call stage limit d keys).2 = some e) : e.content = false := by
  rcases proposeKeys_error h with rfl | rfl <;> rfl

/-- The resolve statements reject nothing but a function name that is no text. -/
theorem not_content_resolveAll {st : Store} {call : Call} {d d' : Dicts} {ps : List PreparedRow} {e : SaveError}
    (hnames : (missingFunctions st call ps).all acceptsText = true) (h : resolveAll st call d ps = (d', some e)) :
    e.content = false := by
  unfold resolveAll at h
  split at h
  · rename_i hc
    cases h
    exact not_content_proposeKeys (by rw [hc])
  · rw [if_pos hnames] at h
    split at h
    · rename_i hf
      cases h
      exact not_content_proposeKeys (by rw [hf])
    · rw [Prod.mk.injEq] at h
      exact not_content_proposeKeys h.2

/-- The names that are missing from the caches are text, if those of all rows are. -/
theorem all_missingFunctions (st : Store) (call : Call) {ps : List PreparedRow}
    (h : ∀ p ∈ ps, acceptsText p.row.function = true) : (missingFunctions st call ps).all acceptsText = true := by
  refine List.all_eq_true.mpr fun name hname => ?_
  obtain ⟨p, hp, rfl⟩ := mem_wantedFunctions.mp (mem_missingFunctions.mp hname).1
  exact h p hp

/-- A call whose rows are accepted does not fail because of them. -/
theorem not_content_of_accepted {st : Store} {db : Db} {call : Call} {ledgerSeq : BitVec 32} {rows : List InvocationRow}
    (h : ∀ row ∈ rows, Accepted acceptsTime row) {e : SaveError}
    (he : (saveLedger acceptsTime st db call ledgerSeq rows).error = some e) : e.content = false := by
  obtain ⟨ps, hps⟩ := prepare_of_accepted h
  have hall := fun p hp => accepted_of_prepared (p := p) hps h hp
  have hnames := all_missingFunctions st call fun p hp => (hall p hp).1
  unfold saveLedger at he
  simp only [hps] at he
  split_ifs at he
  · cases he
    rfl
  · split at he
    · rename_i hd
      cases he
      exact not_content_resolveAll hnames hd
    · rename_i d hd
      obtain ⟨written, hw⟩ := exists_mapM_some fun p hp =>
        Option.isSome_iff_exists.mp ((hall p hp).2 (st.merged call d ps))
      unfold commitBatch at he
      rw [hw] at he
      simp only at he
      split_ifs at he
      · cases he
        rfl
      · cases he
        rfl

/-- The three sequences have a value left for every key that is missing from the caches. -/
structure Room (st : Store) (d : Dicts) (ps : List PreparedRow) : Prop where
  contracts : d.contracts.last + (missingContracts st Call.plain ps).length ≤ smallserialMax
  functions : d.functions.last + (missingFunctions st Call.plain ps).length ≤ smallserialMax
  addresses : d.argAddresses.last + (missingAddresses st Call.plain ps).length ≤ serialMax

/-- There is room for the ids a call on the rows takes. -/
def IdsLeft (st : Store) (db : Db) (rows : List InvocationRow) : Prop :=
  ∀ ps, rows.mapM prepareRow = .ok ps → Room st db.dicts ps

/-- A statement the database does not break goes through when enough values are left. -/
theorem proposeKeys_plain {κ : Type} [DecidableEq κ] (stage : Stage) {limit : Nat} {d : Dict κ} {keys : List κ}
    (h : d.last + keys.length ≤ limit) : ∃ d', proposeKeys Call.plain stage limit d keys = (d', none) := by
  have hok := (Dict.insertAll_ok_iff limit d keys (le_trans (Nat.le_add_right _ _) h)).mpr h
  rcases hi : Dict.insertAll limit d keys with ⟨d', b⟩
  rw [hi] at hok
  cases hok
  refine ⟨d', ?_⟩
  unfold proposeKeys
  have hp : proposedKeys Call.plain stage keys = keys := rfl
  rw [hp, hi]
  rfl

theorem resolveAll_plain {st : Store} {d : Dicts} {ps : List PreparedRow} (hroom : Room st d ps)
    (hnames : (missingFunctions st Call.plain ps).all acceptsText = true) :
    ∃ d', resolveAll st Call.plain d ps = (d', none) := by
  have hlen : ((missingContracts st Call.plain ps).map (·.2)).length = (missingContracts st Call.plain ps).length :=
    List.length_map _
  obtain ⟨contracts, hc⟩ := proposeKeys_plain .contracts (hlen ▸ hroom.contracts)
  obtain ⟨functions, hf⟩ := proposeKeys_plain .functions hroom.functions
  obtain ⟨argAddresses, ha⟩ := proposeKeys_plain .addresses hroom.addresses
  refine ⟨{ contracts, functions, argAddresses }, ?_⟩
  unfold resolveAll
  rw [hc]
  simp only [if_pos hnames, hf, ha]

/-- A call whose rows are accepted is committed, when there is room for its ids and the database does not break it. -/
theorem saveLedger_plain_ok {st : Store} {db : Db} (ledgerSeq : BitVec 32) {rows : List InvocationRow}
    (h : ∀ row ∈ rows, Accepted acceptsTime row) (hroom : IdsLeft st db rows) :
    (saveLedger acceptsTime st db Call.plain ledgerSeq rows).error = none := by
  obtain ⟨ps, hps⟩ := prepare_of_accepted h
  have hall := fun p hp => accepted_of_prepared (p := p) hps h hp
  obtain ⟨d, hd⟩ := resolveAll_plain (hroom ps hps) (all_missingFunctions _ _ fun p hp => (hall p hp).1)
  obtain ⟨written, hw⟩ := exists_mapM_some fun p hp =>
    Option.isSome_iff_exists.mp ((hall p hp).2 (st.merged Call.plain d ps))
  unfold saveLedger
  simp only [hps, hd, commitBatch, hw]
  rfl

end

end Soroscan

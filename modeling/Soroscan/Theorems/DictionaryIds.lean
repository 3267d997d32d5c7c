import Soroscan.Lemmas.Sequences
import Soroscan.Lib.Run

/-!
# Dictionary ids over whole runs

Over every run of calls by any number of processes, committed or not: when no call fails for want of a contract or function
id although few contracts and functions have been seen. It fails, because a process with cold caches takes a value of the
sequence for every key again.
-/

namespace Soroscan

/-- The database and the processes that save into it, with the contracts and the functions of all the rows they were given,
and whether a call has failed for want of an id. A process that restarts is a new one. -/
structure Savers where
  db : Db
  stores : Nat → Store
  contractsSeen : List Bytes32
  functionsSeen : List Bytes
  outOfIds : Bool

/-- An empty database, and every process with empty caches. -/
def Savers.start : Savers := ⟨Db.empty, fun _ => Store.new, [], [], false⟩

/-- One call of `SaveLedger` by a process. -/
structure Save where
  process : Nat
  call : Call
  ledgerSeq : BitVec 32
  rows : List InvocationRow

/-- The contract ids of some rows. -/
def contractsOf (rows : List InvocationRow) : List Bytes32 :=
  rows.filterMap fun row => decodeStrkey row.contractID strkeyVersionContract

/-- At most as many contracts and functions as there are ids have been seen. -/
def Savers.Few (w : Savers) : Prop :=
  w.contractsSeen.dedup.length ≤ smallserialMax ∧ w.functionsSeen.dedup.length ≤ smallserialMax

section

variable (acceptsTime : Time → Bool)

/-- What a call of a process leaves. -/
def Savers.saved (w : Savers) (e : Save) : Saved :=
  saveLedger acceptsTime (w.stores e.process) w.db e.call e.ledgerSeq e.rows

/-- The state after a call. -/
def Savers.after (w : Savers) (e : Save) : Savers where
  db := (w.saved acceptsTime e).db
  stores := Function.update w.stores e.process (w.saved acceptsTime e).store
  contractsSeen := w.contractsSeen ++ contractsOf e.rows
  functionsSeen := w.functionsSeen ++ e.rows.map Invocation.function
  outOfIds := w.outOfIds || decide (OutOfIds (w.saved acceptsTime e))

@[simp] theorem Savers.after_db (w : Savers) (e : Save) : (w.after acceptsTime e).db = (w.saved acceptsTime e).db := rfl

theorem Savers.after_stores_of_ne {w : Savers} {e : Save} {i : Nat} (h : i ≠ e.process) :
    (w.after acceptsTime e).stores i = w.stores i := Function.update_of_ne h _ _

/-- Every call can happen in every state. -/
def saveStep (w : Savers) (e : Save) : Option Savers := some (w.after acceptsTime e)

end

section

variable {acceptsTime : Time → Bool}

/-- While few contracts and functions have been seen, no call has failed for want of an id. -/
def NeverShort (w : Savers) : Prop := w.Few → w.outOfIds = false

/-- The condition on a call: if few contracts and functions have been seen with it, both sequences have a value left for each
key that is missing from the caches of its process. -/
def HasEnough (w : Savers) (e : Save) : Prop :=
  (w.contractsSeen ++ contractsOf e.rows).dedup.length ≤ smallserialMax →
  (w.functionsSeen ++ e.rows.map Invocation.function).dedup.length ≤ smallserialMax →
    Enough (w.stores e.process) w.db e.call e.rows

/-- More has been seen later on. -/
theorem dedup_length_le_append {α : Type} [DecidableEq α] (as bs : List α) :
    as.dedup.length ≤ (as ++ bs).dedup.length := by
  refine (List.subperm_of_subset (List.nodup_dedup as) fun a ha => ?_).length_le
  rw [List.mem_dedup, List.mem_append]
  exact Or.inl (List.mem_dedup.mp ha)

theorem Savers.Few.before {w : Savers} {e : Save} (hfew : (w.after acceptsTime e).Few) : w.Few :=
  ⟨le_trans (dedup_length_le_append _ _) hfew.1, le_trans (dedup_length_le_append _ _) hfew.2⟩

/-- The sequences after a call. -/
theorem sequences_saved (acceptsTime : Time → Bool) {w : Savers} (h : WithinLimit w.db) (e : Save) :
    Sequences (w.stores e.process) w.db e.call e.rows (w.saved acceptsTime e) := saveLedger_sequences h

theorem after_neverShort_iff {w : Savers} {e : Save} (hi : WithinLimit w.db) (hn : NeverShort w) :
    NeverShort (w.after acceptsTime e) ↔ HasEnough w e := by
  have hseq := sequences_saved acceptsTime hi e
  have hflag : (w.after acceptsTime e).outOfIds = false ↔
      w.outOfIds = false ∧ Enough (w.stores e.process) w.db e.call e.rows := by
    simp only [Savers.after, Bool.or_eq_false_iff, decide_eq_false_iff_not, hseq.outOfIds, not_not]
  constructor
  · intro hafter hc hf
    exact (hflag.mp (hafter ⟨hc, hf⟩)).2
  · intro hen hfew
    exact hflag.mpr ⟨hn hfew.before, hen hfew.1 hfew.2⟩

/-- In a run of calls on an empty database, no call ever fails for want of an id, while few contracts and functions have been
seen, exactly when every call finds enough values left in the sequences. -/
theorem ids_never_short_iff (es : List Save) :
    (∀ w ∈ states (saveStep acceptsTime) Savers.start es, NeverShort w) ↔
      EachStep (saveStep acceptsTime) HasEnough Savers.start es := by
  refine states_iff_eachStep (I := fun w => WithinLimit w.db) (P := NeverShort) ?_ ?_
    ⟨Nat.zero_le _, Nat.zero_le _⟩ (fun _ => rfl) es
  · intro w e w' hi h
    rw [← Option.some.inj h]
    exact (sequences_saved _ hi e).withinLimit
  · intro w e w' hi hn h
    rw [← Option.some.inj h]
    exact after_neverShort_iff hi hn

end

/-! ## Cold caches -/

/-- A row of the contract with the zero id, with the empty function name and no arguments. -/
def plainRow : InvocationRow where
  contractID := contractStrkey Bytes32.zero
  txHash := Bytes32.zero
  ledger := 1
  closedAt := 0
  function := []
  argsJSON := []
  feeCharged := 0

/-- A process that has just started saves the one row. -/
def coldSave (process : Nat) : Save := ⟨process, Call.plain, 1, [plainRow]⟩

theorem prepare_plainRow : [plainRow].mapM prepareRow = .ok [⟨plainRow, Bytes32.zero, none⟩] := by
  simp [prepareRow, plainRow, parsedArgsOf, pure, Except.pure, bind, Except.bind, Except.map]

theorem coldSave_contracts : contractProposals Store.new Call.plain [plainRow] = [Bytes32.zero] := by
  rw [contractProposals, prepare_plainRow]
  simp [Call.plain, proposedKeys, missingContracts, MapOrder.plain, wantedContracts, Store.new]

theorem coldSave_functions : functionProposals Store.new Call.plain [plainRow] = [[]] := by
  have hname : acceptsText [] = true := by decide
  rw [functionProposals, prepare_plainRow]
  simp [Call.plain, proposedKeys, missingFunctions, MapOrder.plain, wantedFunctions, Store.new, plainRow, hname]

/-- The state after some cold saves, each by a process of its own. -/
structure AfterCold (n : Nat) (w : Savers) : Prop where
  contracts : w.db.dicts.contracts.last = n
  functions : w.db.dicts.functions.last = n
  cold : ∀ i, n ≤ i → w.stores i = Store.new
  contractsSeen : w.contractsSeen ⊆ [Bytes32.zero]
  functionsSeen : w.functionsSeen ⊆ [[]]

theorem afterCold_start : AfterCold 0 Savers.start :=
  ⟨rfl, rfl, fun _ _ => rfl, List.nil_subset _, List.nil_subset _⟩

/-- What was seen after one more cold save. -/
theorem AfterCold.seen {n : Nat} {w : Savers} (h : AfterCold n w) :
    (w.after (fun _ => true) (coldSave n)).contractsSeen ⊆ [Bytes32.zero] ∧
      (w.after (fun _ => true) (coldSave n)).functionsSeen ⊆ [[]] := by
  refine ⟨List.append_subset.mpr ⟨h.contractsSeen, ?_⟩, List.append_subset.mpr ⟨h.functionsSeen, ?_⟩⟩
  · simp [contractsOf, coldSave, plainRow]
  · simp [coldSave, plainRow]

/-- The sequences after one more cold save. -/
theorem AfterCold.sequences {n : Nat} {w : Savers} (h : AfterCold n w) (hn : n ≤ smallserialMax) :
    Sequences Store.new w.db Call.plain [plainRow] (w.saved (fun _ => true) (coldSave n)) := by
  have hseq := sequences_saved (fun _ => true) (w := w)
    ⟨by rw [h.contracts]; exact hn, by rw [h.functions]; exact hn⟩ (coldSave n)
  have hstore : w.stores (coldSave n).process = Store.new := h.cold n le_rfl
  rw [hstore] at hseq
  exact hseq

theorem AfterCold.enough_iff {n : Nat} {w : Savers} (h : AfterCold n w) :
    Enough Store.new w.db Call.plain [plainRow] ↔ n < smallserialMax := by
  rw [Enough, coldSave_contracts, coldSave_functions, h.contracts, h.functions]
  exact and_self_iff

/-- A cold save takes one value of each sequence, although both keys are already there. -/
theorem AfterCold.next {n : Nat} {w : Savers} (h : AfterCold n w) (hn : n < smallserialMax) :
    AfterCold (n + 1) (w.after (fun _ => true) (coldSave n)) := by
  have hseq := h.sequences hn.le
  have hc := hseq.contracts (h.enough_iff.mpr hn)
  have hf := hseq.functions (h.enough_iff.mpr hn)
  rw [coldSave_contracts, h.contracts] at hc
  rw [coldSave_functions, h.functions] at hf
  refine ⟨?_, ?_, fun i hi => ?_, h.seen.1, h.seen.2⟩
  · rw [Savers.after_db, hc, List.length_singleton]
  · rw [Savers.after_db, hf, List.length_singleton]
  · have hne : i ≠ (coldSave n).process := Nat.ne_of_gt hi
    rw [Savers.after_stores_of_ne _ hne]
    exact h.cold i (by omega)

/-- The calls of some processes that save the row one after another, and of one more. -/
theorem run_coldSaves_succ {n : Nat} {w : Savers}
    (h : run (saveStep fun _ => true) Savers.start ((List.range n).map coldSave) = some w) :
    run (saveStep fun _ => true) Savers.start ((List.range (n + 1)).map coldSave) =
      some (w.after (fun _ => true) (coldSave n)) := by
  rw [List.range_succ, List.map_append, run_append, h]
  rfl

/-- The states of as many cold saves as there are ids. -/
theorem exists_afterCold (n : Nat) (hn : n ≤ smallserialMax) :
    ∃ w, run (saveStep fun _ => true) Savers.start ((List.range n).map coldSave) = some w ∧ AfterCold n w := by
  induction n with
  | zero => exact ⟨_, rfl, afterCold_start⟩
  | succ n ih =>
    obtain ⟨w, hrun, hw⟩ := ih (by omega)
    exact ⟨_, run_coldSaves_succ hrun, hw.next (by omega)⟩

/-- What is seen stays few when it is one key. -/
theorem dedup_length_le_one {α : Type} [DecidableEq α] {as : List α} {a : α} (h : as ⊆ [a]) : as.dedup.length ≤ 1 :=
  (List.subperm_of_subset (List.nodup_dedup as) fun _ hb => h (List.mem_dedup.mp hb)).length_le

/-- 32768 processes save the same row one after another, each with cold caches: one contract and one function have been seen,
and the last call finds no id left. -/
theorem cold_saves_run_short :
    ¬∀ w ∈ states (saveStep fun _ => true) Savers.start ((List.range (smallserialMax + 1)).map coldSave), NeverShort w := by
  intro hall
  obtain ⟨w, hrun, hw⟩ := exists_afterCold smallserialMax le_rfl
  have hnever := hall _ (run_mem_states (run_coldSaves_succ hrun))
  have hone : 1 ≤ smallserialMax := by decide
  have hfew : (w.after (fun _ => true) (coldSave smallserialMax)).Few :=
    ⟨le_trans (dedup_length_le_one hw.seen.1) hone, le_trans (dedup_length_le_one hw.seen.2) hone⟩
  have hout : OutOfIds (w.saved (fun _ => true) (coldSave smallserialMax)) :=
    (hw.sequences le_rfl).outOfIds.mpr fun hen => absurd (hw.enough_iff.mp hen) (lt_irrefl _)
  have hflag := hnever hfew
  rw [Savers.after, Bool.or_eq_false_iff, decide_eq_false_iff_not] at hflag
  exact hflag.2 hout

end Soroscan

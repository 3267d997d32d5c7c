import Soroscan.Lemmas.Sessions

/-!
# No phantom ids

Over every run of `SaveLedger` calls on one `Store`, in any interleaving with each other and with the statements of other
processes, and whatever breaks: the caches hold committed rows, a call that returns an error has changed nothing that anyone
else sees, and a row that is inserted carries ids that lead back to what it says.

A contract id that is spelled in two ways within one call is the exception. The base-32 reader skips line breaks, so two texts
can name one contract; `resolveContracts` leads its raw id back to one of them, and the rows of the other get the id 0.
-/

namespace Soroscan

namespace Sessions

/-- The call an event is about. -/
def Event.session : Event → Option Nat
  | .call i _ _ _ | .next i | .breaks i => some i
  | .other _ _ => none

/-- A call has returned an error. -/
def State.Failed (w : State) (i : Nat) : Prop := ∃ s e, w.sessions i = some s ∧ s.phase = .returned (some e)

/-- A call is committed. -/
def State.IsCommitted (w : State) (i : Nat) : Prop := ∃ s, w.sessions i = some s ∧ s.phase.isCommitted = true

section

variable {acceptsTime : Time → Bool}

/-- What is to hold at the end of a run from a database on: the caches hold committed ids; no step of a call that has returned
an error changed a cache or what anyone sees of the tables; and a row that a step inserted is a row of a call that has not
failed, and carries what one of its invocations says, the contract as well if the rows of the call meet a condition. -/
structure NoPhantomIDs (acceptsTime : Time → Bool) (named : List InvocationRow → Prop) (db : Db) (es : List Event) (w : State) :
    Prop where
  caches : w.store.Sound w.tables.committed
  failed : ∀ i, w.Failed i → ∀ a e b, Takes (step acceptsTime) (State.start db) es a e b → e.session = some i →
    b.store = a.store ∧ a.tables.Same b.tables
  rows : ∀ a e b, Takes (step acceptsTime) (State.start db) es a e b →
    ∀ r ∈ b.tables.transactions, r ∉ a.tables.transactions → ∃ i s row, e = .next i ∧ a.sessions i = some s ∧ ¬w.Failed i ∧
      row ∈ s.rows ∧ Carries w.tables.committed row r ∧ (named s.rows → CarriesContract w.tables.committed row r)

/-! ## What a call leaves -/

/-- A committed call stays committed: it returns no error. -/
theorem State.IsCommitted.step {w w' : State} {e : Event} {i : Nat} (hc : w.IsCommitted i)
    (h : Sessions.step acceptsTime w e = some w') : w'.IsCommitted i := by
  obtain ⟨s, hs, hphase⟩ := hc
  cases e with
  | call j ledgerSeq rows order =>
    simp only [Sessions.step] at h
    split at h <;> cases h
    rename_i hnone
    have hne : i ≠ j := by
      rintro rfl
      rw [hs] at hnone
      cases hnone
    exact ⟨s, (put_sessions_of_ne hne _).trans hs, hphase⟩
  | next j =>
    obtain ⟨s', hs', h⟩ := Option.bind_eq_some_iff.mp h
    obtain ⟨a, ha, rfl⟩ := Option.map_eq_some_iff.mp h
    by_cases hij : i = j
    · subst hij
      rw [hs, Option.some.injEq] at hs'
      subst hs'
      refine ⟨_, Function.update_self _ _ _, ?_⟩
      cases advances_of_advance ha with
      | quietly _ _ hno => rw [hphase] at hno; cases hno
      | commits => rfl
      | merges => rfl
    · exact ⟨s, (moved_sessions_of_ne hij _ _).trans hs, hphase⟩
  | breaks j =>
    obtain ⟨s', hs', h⟩ := Option.bind_eq_some_iff.mp h
    obtain ⟨stage, hstage, rfl⟩ := Option.map_eq_some_iff.mp h
    by_cases hij : i = j
    · subst hij
      rw [hs, Option.some.injEq] at hs'
      subst hs'
      rw [stage_of_isCommitted hphase] at hstage
      cases hstage
    · exact ⟨s, (moved_sessions_of_ne hij _ _).trans hs, hphase⟩
  | other j what =>
    obtain ⟨t', -, rfl⟩ := Option.map_eq_some_iff.mp h
    exact ⟨s, hs, hphase⟩

/-- A committed call has not failed. -/
theorem State.IsCommitted.not_failed {w : State} {i : Nat} (hc : w.IsCommitted i) : ¬w.Failed i := by
  rintro ⟨s, e, hs, hphase⟩
  obtain ⟨s', hs', hcommitted⟩ := hc
  rw [hs, Option.some.injEq] at hs'
  rw [← hs', hphase] at hcommitted
  cases hcommitted

theorem not_failed_of_run {w w' : State} {es : List Event} {i : Nat} (hc : w.IsCommitted i)
    (h : run (Sessions.step acceptsTime) w es = some w') : ¬w'.Failed i :=
  (run_invariant (P := fun w : State => w.IsCommitted i) (fun _ _ _ hc hstep => hc.step hstep) hc h).not_failed

/-- A step of a call leaves the caches and what anyone sees of the tables, or the call is committed after it. -/
theorem quiet_or_committed {w w' : State} {e : Event} {i : Nat} (he : e.session = some i)
    (h : Sessions.step acceptsTime w e = some w') : (w'.store = w.store ∧ w.tables.Same w'.tables) ∨ w'.IsCommitted i := by
  cases e with
  | call j ledgerSeq rows order =>
    simp only [Sessions.step] at h
    split at h <;> cases h
    exact Or.inl ⟨rfl, Tables.Same.refl _⟩
  | next j =>
    cases he
    obtain ⟨s, -, h⟩ := Option.bind_eq_some_iff.mp h
    obtain ⟨a, ha, rfl⟩ := Option.map_eq_some_iff.mp h
    cases advances_of_advance ha with
    | quietly hsame => exact Or.inl ⟨rfl, hsame⟩
    | commits => exact Or.inr ⟨_, Function.update_self _ _ _, rfl⟩
    | merges => exact Or.inr ⟨_, Function.update_self _ _ _, rfl⟩
  | breaks j =>
    obtain ⟨s, -, h⟩ := Option.bind_eq_some_iff.mp h
    obtain ⟨stage, -, rfl⟩ := Option.map_eq_some_iff.mp h
    exact Or.inl ⟨rfl, w.tables.same_abort _⟩
  | other j what => cases he

theorem transactions_foreign {t t' : Tables} {o : Owner} {what : Foreign} (h : t.foreign o what = some t') :
    t'.transactions = t.transactions := by
  cases what with
  | contract raw =>
    simp only [Tables.foreign] at h
    split_ifs at h
    exact (proposes_contract h).1.same.transactions
  | function name =>
    simp only [Tables.foreign] at h
    split_ifs at h
    exact (proposes_function h).1.same.transactions
  | address a =>
    simp only [Tables.foreign] at h
    split_ifs at h with hlast
    exact (proposes_address h hlast).1.same.transactions
  | commit =>
    cases h
    rfl
  | abort =>
    cases h
    rfl

/-- A row that a step inserts is one of a call that is committed by it, and carries what one of its invocations says. -/
theorem carries_of_step {w w' : State} {e : Event} (hi : w.Inv) (h : Sessions.step acceptsTime w e = some w') {r : TxRow}
    (hr : r ∈ w'.tables.transactions) (hnew : r ∉ w.tables.transactions) :
    ∃ i s row, e = .next i ∧ w.sessions i = some s ∧ w'.IsCommitted i ∧
      row ∈ s.rows ∧ Carries w'.tables.committed row r ∧ (OneSpelling s.rows → CarriesContract w'.tables.committed row r) := by
  cases e with
  | call j ledgerSeq rows order =>
    simp only [Sessions.step] at h
    split at h <;> cases h
    exact absurd hr hnew
  | next i =>
    obtain ⟨s, hs, h⟩ := Option.bind_eq_some_iff.mp h
    obtain ⟨a, ha, rfl⟩ := Option.map_eq_some_iff.mp h
    cases advances_of_advance ha with
    | quietly hsame => exact absurd (hsame.transactions ▸ hr) hnew
    | merges => exact absurd hr hnew
    | commits hphase =>
      rename_i l written
      have hinv := hi.sessions i s hs
      unfold Session.Inv at hinv
      rw [hphase] at hinv
      obtain ⟨row, hrow, hcarries, hcontract⟩ := hinv.2 r ((mem_foldl_insertRow hr).resolve_left hnew)
      have hgrows := w.tables.seen_grows_commit (.call i)
      exact ⟨i, s, row, rfl, hs, ⟨_, Function.update_self _ _ _, rfl⟩, hrow, hcarries.grows hgrows,
        fun hone => (hcontract hone).grows hgrows⟩
  | breaks j =>
    obtain ⟨s, -, h⟩ := Option.bind_eq_some_iff.mp h
    obtain ⟨stage, -, rfl⟩ := Option.map_eq_some_iff.mp h
    exact absurd hr hnew
  | other j what =>
    obtain ⟨t', ht, rfl⟩ := Option.map_eq_some_iff.mp h
    exact absurd (transactions_foreign ht ▸ hr) hnew

/-- In every run of calls and of other processes, the caches hold no phantom id: they hold committed rows, a call that has
returned an error left the caches and the tables, and an inserted row carries what its invocation says, its contract as well
unless its call spells one in two ways. -/
theorem no_phantom_ids {db : Db} {es : List Event} {w : State} (hserial : db.dicts.argAddresses.last ≤ serialMax)
    (h : run (step acceptsTime) (State.start db) es = some w) : NoPhantomIDs acceptsTime OneSpelling db es w := by
  have hinv : ∀ {before : List Event} {a : State}, run (step acceptsTime) (State.start db) before = some a → a.Inv := fun ha =>
    run_invariant (P := State.Inv) (fun _ _ _ hi hstep => hi.step hstep) (State.inv_start hserial) ha
  refine ⟨(hinv h).store, fun i hfailed a e b htakes he => ?_, fun a e b htakes r hr hnew => ?_⟩
  · obtain ⟨-, hstep, after, hafter⟩ := htakes.split h
    rcases quiet_or_committed he hstep with hquiet | hcommitted
    · exact hquiet
    · exact absurd hfailed (not_failed_of_run hcommitted hafter)
  · obtain ⟨⟨before, hbefore⟩, hstep, after, hafter⟩ := htakes.split h
    obtain ⟨i, s, row, he, hs, hcommitted, hrow, hcarries, hcontract⟩ := carries_of_step (hinv hbefore) hstep hr hnew
    have hgrows := committed_grows_of_run hafter
    exact ⟨i, s, row, he, hs, not_failed_of_run hcommitted hafter, hrow, hcarries.grows hgrows,
      fun hone => (hcontract hone).grows hgrows⟩

end

/-! ## Two calls side by side, and two spellings -/

/-- A call of the function `set`, in a transaction, with an address as its argument. -/
def setOn (contract : Text) (tx : UInt8) : InvocationRow where
  contractID := contract
  txHash := Bytes32.fill tx
  ledger := 5
  closedAt := 0
  function := [115, 101, 116]
  argsJSON := ['[', '"'] ++ contractStrkey (Bytes32.fill 1) ++ ['"', ']']
  feeCharged := 100

/-- Two calls for one new contract: the second one waits at the contract until the first one is committed. Meanwhile another
process inserts the function name. -/
def sideBySide : List Event :=
  [.call 0 5 [setOn (contractStrkey Bytes32.zero) 1] Call.plain, .call 1 6 [setOn (contractStrkey Bytes32.zero) 2] Call.plain] ++
  List.replicate 6 (.next 0) ++ List.replicate 5 (.next 1) ++ [.other 3 (.function [115, 101, 116]), .other 3 .commit] ++
  List.replicate 8 (.next 0) ++ List.replicate 9 (.next 1)

/-- Both calls are committed, with the same ids, and no id is a phantom. -/
theorem no_phantom_ids_sideBySide : ∃ w, run (step fun _ => true) (State.start Db.empty) sideBySide = some w ∧
    w.tables.transactions.map (fun r => (r.contractId, r.function)) = [(1, 1), (1, 1)] ∧
    NoPhantomIDs (fun _ => true) OneSpelling Db.empty sideBySide w := by
  have hids : (run (step fun _ => true) (State.start Db.empty) sideBySide).map
      (fun w => w.tables.transactions.map fun r => (r.contractId, r.function)) = some [(1, 1), (1, 1)] := by decide +kernel
  obtain ⟨w, hw, hids⟩ := Option.map_eq_some_iff.mp hids
  exact ⟨w, hw, hids, no_phantom_ids (by decide) hw⟩

/-- A call whose two rows spell the zero contract with a line break and without one, up to its commit. -/
def spelledTwice : List Event :=
  .call 0 5 [setOn (contractStrkey Bytes32.zero) 1, setOn (contractStrkey Bytes32.zero ++ ['\n']) 2] Call.plain ::
    List.replicate 13 (.next 0)

/-- The call is committed, and one of its rows has the contract id 0. -/
theorem phantom_id_spelledTwice : ∃ w, run (step fun _ => true) (State.start Db.empty) (spelledTwice ++ [.next 0]) = some w ∧
    ¬NoPhantomIDs (fun _ => true) (fun _ => True) Db.empty (spelledTwice ++ [.next 0]) w := by
  have hids : ((run (step fun _ => true) (State.start Db.empty) spelledTwice).bind fun a => (step (fun _ => true) a (.next 0)).map
      fun b => (a.tables.transactions.length, b.tables.transactions.map TxRow.contractId)) = some (0, [0, 1]) := by
    decide +kernel
  obtain ⟨a, ha, hids⟩ := Option.bind_eq_some_iff.mp hids
  obtain ⟨b, hb, hids⟩ := Option.map_eq_some_iff.mp hids
  rw [Prod.mk.injEq, List.length_eq_zero_iff] at hids
  obtain ⟨hnone, hids⟩ := hids
  refine ⟨b, by rw [run_append, ha, Option.bind_some, run_cons_of_step hb, run_nil], fun h => ?_⟩
  have hzero : 0 ∈ b.tables.transactions.map TxRow.contractId := by
    rw [hids]
    exact List.mem_cons_self
  obtain ⟨r, hr, hid⟩ := List.mem_map.mp hzero
  obtain ⟨-, -, row, -, -, -, -, -, hcontract⟩ := h.rows a (.next 0) b ⟨spelledTwice, [], rfl, ha, hb⟩ r hr (by
    rw [hnone]
    exact List.not_mem_nil)
  obtain ⟨-, -, -, hne⟩ := hcontract trivial
  exact hne hid

end Sessions

end Soroscan

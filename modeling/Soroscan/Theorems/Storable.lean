import Soroscan.Lemmas.Indexer
import Soroscan.Lemmas.Accepts

/-!
# Which ledgers can be stored

For every ledger close meta: when its rows are accepted by the columns they are written to, so that a follower gets past it.
A null character in the arguments or in the name of one call is enough to stop the follower at the ledger for good.
-/

namespace Soroscan

section

variable (scValString : ScVal → Bytes) (acceptsTime : Time → Bool)

/-! ## The condition -/

/-- The call a transaction records: the first `fn_call` of its diagnostic events. -/
def recordedCall (tx : TransactionResultMeta) : Option (Text × Bytes × ScVal) :=
  (diagnosticEvents tx.txApplyProcessing).bind fun events => events.findSome? fnCall

/-- The columns hold a recorded call: its function name is text, its arguments hold no null character, and the sequence number
and the close time of its ledger fit. -/
structure StorableCall (header : LedgerHeader) (call : Text × Bytes × ScVal) : Prop where
  name : acceptsText call.2.1 = true
  args : argsHoldNull scValString call.2.2 = false
  ledgerSeq : header.ledgerSeq.toNat < 2 ^ 31
  closeTime : acceptsTime (closeTimeOf header) = true

/-- The columns hold every recorded call of the ledger. -/
def Storable : LedgerCloseMeta → Prop
  | .v1 header txs => ∀ tx ∈ txs, ∀ call, recordedCall tx = some call → StorableCall scValString acceptsTime header call
  | .v2 header txs => ∀ tx ∈ txs, ∀ call, recordedCall tx = some call → StorableCall scValString acceptsTime header call
  | _ => True

/-! ## Extracted rows -/

/-- A recorded call names its contract by a strkey. -/
theorem contractID_of_recordedCall {tx : TransactionResultMeta} {call : Text × Bytes × ScVal}
    (h : recordedCall tx = some call) : ∃ id, call.1 = contractStrkey id := by
  obtain ⟨events, -, h⟩ := Option.bind_eq_some_iff.mp h
  obtain ⟨ev, -, h⟩ := List.exists_of_findSome?_eq_some h
  unfold fnCall at h
  split at h
  · split_ifs at h
    cases h
    exact ⟨_, rfl⟩
  · cases h

/-- The row of a recorded call. -/
def rowOf (header : LedgerHeader) (tx : TransactionResultMeta) (call : Text × Bytes × ScVal) : InvocationRow where
  contractID := call.1
  txHash := tx.result.transactionHash
  ledger := header.ledgerSeq
  closedAt := closeTimeOf header
  function := call.2.1
  argsJSON := encodeArgs scValString call.2.2
  feeCharged := tx.result.feeCharged.toInt

theorem invocationOf_eq (header : LedgerHeader) (tx : TransactionResultMeta) :
    invocationOf scValString header.ledgerSeq (closeTimeOf header) tx =
      (recordedCall tx).map (rowOf scValString header tx) := by
  unfold invocationOf recordedCall
  cases diagnosticEvents tx.txApplyProcessing <;> rfl

/-- The printed arguments are always read, and are never none. -/
theorem parsedArgsOf_encodeArgs (data : ScVal) :
    parsedArgsOf (encodeArgs scValString data) = .ok (some (argsJson scValString data)) := by
  have hparse := parseArgs_encodeArgs scValString data
  have hne : encodeArgs scValString data ≠ [] := by
    intro hnil
    have hnone : parseArgs [] = none := by decide
    rw [hnil, hnone] at hparse
    cases hparse
  have harr : argsJson scValString data ≠ .null := by
    unfold argsJson
    split <;> simp
  unfold parsedArgsOf
  rw [if_neg hne, hparse]
  split
  · rename_i h
    cases h
  · rename_i h
    exact absurd (Option.some.inj h) harr
  · rename_i h
    rw [← Option.some.inj h]

theorem accepted_rowOf_iff {header : LedgerHeader} {tx : TransactionResultMeta} {call : Text × Bytes × ScVal}
    (h : recordedCall tx = some call) :
    Accepted acceptsTime (rowOf scValString header tx call) ↔ StorableCall scValString acceptsTime header call := by
  obtain ⟨id, hid⟩ := contractID_of_recordedCall h
  have hread : prepareRow (rowOf scValString header tx call) =
      .ok ⟨rowOf scValString header tx call, id, some (argsJson scValString call.2.2)⟩ := by
    unfold prepareRow
    have hdecode : decodeStrkey (rowOf scValString header tx call).contractID strkeyVersionContract = some id := by
      rw [rowOf, hid, decodeStrkey_contractStrkey]
    rw [hdecode]
    simp only [rowOf, parsedArgsOf_encodeArgs]
    rfl
  rw [accepted_iff hread]
  constructor
  · rintro ⟨hname, hfits⟩
    exact ⟨hname, by rw [← hasNull_argsJson]; exact hfits.args _ rfl, hfits.ledger, hfits.closedAt⟩
  · intro hc
    refine ⟨hc.name, hc.ledgerSeq, hc.closeTime, fun v hv => ?_⟩
    rw [← Option.some.inj hv, hasNull_argsJson]
    exact hc.args

/-- The rows of a ledger are accepted exactly when it is storable. -/
theorem accepted_extract_iff {m : LedgerCloseMeta} {result : LedgerResult} (h : extract scValString m = some result) :
    (∀ row ∈ result.invocations, Accepted acceptsTime row) ↔ Storable scValString acceptsTime m := by
  have hrows : ∀ header txs, (∀ row ∈ (extractTransactions scValString header txs).invocations, Accepted acceptsTime row) ↔
      ∀ tx ∈ txs, ∀ call, recordedCall tx = some call → StorableCall scValString acceptsTime header call := by
    intro header txs
    simp only [extractTransactions, List.mem_filterMap, invocationOf_eq, Option.map_eq_some_iff]
    constructor
    · intro hall tx htx call hcall
      exact (accepted_rowOf_iff scValString acceptsTime hcall).mp (hall _ ⟨tx, htx, call, hcall, rfl⟩)
    · rintro hall _ ⟨tx, htx, call, hcall, rfl⟩
      exact (accepted_rowOf_iff scValString acceptsTime hcall).mpr (hall tx htx call hcall)
  cases m with
  | v0 header txs =>
    cases h
    exact iff_of_true (fun row hrow => by cases hrow) trivial
  | v1 header txs =>
    cases h
    exact hrows header txs
  | v2 header txs =>
    cases h
    exact hrows header txs
  | other v => cases h

/-! ## The caches of the processes -/

/-- The caches of a process. -/
def Process.store : Process → Store
  | .follow f => f.store
  | .backfill b => b.store

/-- In every reachable world the caches agree with the dictionaries, the function names are text, and the rows are well
written. -/
structure World.Sound (w : World) : Prop where
  stores : ∀ pid p, w.processes pid = some p → p.store.Sound w.db.dicts
  names : NamesAreText w.db.dicts
  written : w.db.WellWritten

theorem World.sound_start : World.start.Sound where
  stores pid p h := by cases h
  names name h := by cases h
  written := by
    constructor
    · intro r hr
      cases hr
    · intro r hr
      cases hr

end

section

variable {scValString : ScVal → Bytes} {acceptsTime : Time → Bool} {archive : BitVec 32 → LedgerCloseMeta}

/-- The world after one process was replaced, over dictionaries that have grown. -/
theorem World.Sound.put {w w' : World} {pid : Nat} {p : Option Process} (h : w.Sound)
    (hprocesses : w'.processes = (w.put pid p).processes) (hgrows : w.db.dicts.Grows w'.db.dicts)
    (hnames : NamesAreText w'.db.dicts) (hwritten : w'.db.WellWritten) (hp : ∀ p', p = some p' → p'.store.Sound w'.db.dicts) :
    w'.Sound where
  stores pid' p' hp' := by
    rw [hprocesses] at hp'
    by_cases hpid : pid' = pid
    · subst hpid
      rw [put_processes_self] at hp'
      exact hp p' hp'
    · rw [put_processes_of_ne hpid] at hp'
      exact (h.stores pid' p' hp').grows hgrows
  names := hnames
  written := hwritten

/-- The world after a round that failed. -/
theorem World.Sound.failed {w w' : World} (h : w.Sound) {st : Store} (hst : st.Sound w.db.dicts) {call : Call}
    (hround : FailedRound acceptsTime st call w w') : w'.Sound := by
  rcases hround with rfl | ⟨seq, rows, -, rfl⟩
  · exact h
  · have hkept := kept_saveLedger acceptsTime st w.db call seq rows
    exact ⟨fun pid p hp => (h.stores pid p hp).grows hkept.grows, hkept.names h.names,
      wellWritten_saveLedger acceptsTime call seq rows hst h.written⟩

/-- Every step keeps the caches in agreement with the dictionaries. -/
theorem World.Sound.step {w w' : World} {e : Event} (h : w.Sound)
    (hstep : step scValString acceptsTime archive w e = some w') : w'.Sound := by
  cases steps_of_step hstep with
  | followRefused => exact h
  | @followStarts pid startFlag f _ hf =>
    refine h.put rfl (Dicts.Grows.refl _) h.names ⟨h.written.functions, h.written.args⟩ fun p hp => ?_
    cases hp
    unfold Soroscan.startFollow at hf
    split_ifs at hf <;> cases hf <;> exact Store.new_sound _
  | @followSaves pid call f result hf =>
    have hkept := kept_saveLedger acceptsTime f.store w.db call result.sequence result.invocations
    refine h.put rfl hkept.grows (hkept.names h.names)
      (wellWritten_saveLedger acceptsTime call _ _ (h.stores pid _ hf) h.written) fun p hp => ?_
    cases hp
    exact hkept.sound (h.stores pid _ hf)
  | followFails hf hround => exact h.failed (h.stores _ _ hf) hround
  | backfillStarts =>
    refine h.put rfl (Dicts.Grows.refl _) h.names ⟨h.written.functions, h.written.args⟩ fun p hp => ?_
    obtain ⟨b, hb, rfl⟩ := Option.map_eq_some_iff.mp hp
    unfold Soroscan.startBackfill at hb
    simp only at hb
    split_ifs at hb <;> cases hb <;> exact Store.new_sound _
  | @batchSaves pid call b results hb =>
    have hkept := kept_saveLedger acceptsTime b.store w.db call b.batchEnd (results.flatMap LedgerResult.invocations)
    refine h.put rfl hkept.grows (hkept.names h.names)
      (wellWritten_saveLedger acceptsTime call _ _ (h.stores pid _ hb) h.written) fun p hp => ?_
    cases hp
    exact hkept.sound (h.stores pid _ hb)
  | batchFails hb hround => exact h.failed (h.stores _ _ hb) hround
  | @batchCheckpoint pid b batchEnd hb =>
    refine h.put rfl (Dicts.Grows.refl _) h.names ⟨h.written.functions, h.written.args⟩ fun p hp => ?_
    cases hp
    exact h.stores pid (.backfill b) hb
  | stops => exact h.put rfl (Dicts.Grows.refl _) h.names ⟨h.written.functions, h.written.args⟩ fun p hp => by cases hp

theorem World.sound_of_run {w : World} {es : List Event}
    (h : run (Soroscan.step scValString acceptsTime archive) World.start es = some w) : w.Sound :=
  run_invariant (P := World.Sound) (fun _ _ _ hs hstep => hs.step hstep) World.sound_start h

/-! ## A follower at a ledger -/

/-- A follower gets past a storable ledger when there is room for the ids and the database does not break the call. -/
theorem follower_goes_on {w : World} {pid : Nat} {f : Follow} (hf : w.processes pid = some (.follow f))
    {result : LedgerResult} (hx : extract scValString (archive f.next) = some result)
    (hs : Storable scValString acceptsTime (archive f.next)) (hids : IdsLeft f.store w.db result.invocations) :
    ∃ w', step scValString acceptsTime archive w (.followSaves pid Call.plain) = some w' := by
  have hok := saveLedger_plain_ok result.sequence
    ((accepted_extract_iff scValString acceptsTime hx).mpr hs) hids
  simp only [step, hf, followSaves, indexOne, hx, Option.map_some, Option.bind_some, hok, if_true]
  exact ⟨_, rfl⟩

/-- No round of a follower saves a ledger that is not storable. -/
theorem no_round_saves {w : World} (hw : w.Sound) {pid : Nat} {f : Follow} (hf : w.processes pid = some (.follow f))
    (hs : ¬Storable scValString acceptsTime (archive f.next)) (call : Call) :
    step scValString acceptsTime archive w (.followSaves pid call) = none := by
  rw [Option.eq_none_iff_forall_ne_some]
  intro w' hstep
  obtain ⟨f', result, hf', hx, herr, -⟩ := step_follow_saves hstep
  rw [hf] at hf'
  cases hf'
  obtain ⟨ps, d, written, hc⟩ := committed_of_ok herr
  exact hs ((accepted_extract_iff scValString acceptsTime hx).mp (hc.rows_accepted (hw.stores pid _ hf) hw.names))

/-- A follower at a ledger that is not storable stays as it is, whatever happens short of its being stopped. -/
theorem step_keeps_follower {w w' : World} (hw : w.Sound) {pid : Nat} {f : Follow}
    (hf : w.processes pid = some (.follow f)) (hs : ¬Storable scValString acceptsTime (archive f.next)) {e : Event}
    (he : e ≠ .stop pid) (hstep : step scValString acceptsTime archive w e = some w') :
    w'.processes pid = some (.follow f) := by
  -- a process that is replaced is another one
  have other : ∀ {pid' : Nat} {p : Option Process}, pid' ≠ pid → (w.put pid' p).processes pid = some (.follow f) := by
    intro pid' p hne
    rw [put_processes_of_ne hne.symm]
    exact hf
  cases steps_of_step hstep with
  | followRefused => exact hf
  | followStarts hfree =>
    refine other ?_
    rintro rfl
    rw [hf] at hfree
    cases hfree
  | @followSaves pid' call f' result =>
    by_cases hpid : pid' = pid
    · subst hpid
      rw [no_round_saves hw hf hs call] at hstep
      cases hstep
    · exact other hpid
  | followFails _ hround =>
    rw [hround.processes]
    exact hf
  | backfillStarts hfree =>
    refine other ?_
    rintro rfl
    rw [hf] at hfree
    cases hfree
  | batchSaves hb =>
    refine other ?_
    rintro rfl
    rw [hf] at hb
    cases hb
  | batchFails _ hround =>
    rw [hround.processes]
    exact hf
  | batchCheckpoint hb =>
    refine other ?_
    rintro rfl
    rw [hf] at hb
    cases hb
  | stops =>
    refine other ?_
    rintro rfl
    exact he rfl

/-- Over a whole run, as long as it is not stopped. -/
theorem run_keeps_follower {w w' : World} (hw : w.Sound) {pid : Nat} {f : Follow}
    (hf : w.processes pid = some (.follow f)) (hs : ¬Storable scValString acceptsTime (archive f.next)) {es : List Event}
    (hes : Event.stop pid ∉ es) (hrun : run (step scValString acceptsTime archive) w es = some w') :
    w'.processes pid = some (.follow f) := by
  induction es generalizing w with
  | nil =>
    cases hrun
    exact hf
  | cons e es ih =>
    rw [run_cons] at hrun
    obtain ⟨w₁, hstep, hrun⟩ := Option.bind_eq_some_iff.mp hrun
    rw [List.mem_cons, not_or] at hes
    exact ih (hw.step hstep) (step_keeps_follower hw hf hs (fun h => hes.1 h.symm) hstep) hes.2 hrun

end

/-! ## The ledgers a follower gets past -/

section

variable (scValString : ScVal → Bytes) (acceptsTime : Time → Bool)

/-- A ledger does not stop the indexer: the columns accept every row extracted from it, no save of it fails because of its
contents, and in every reachable world a follower at it goes on to the next ledger, when there is room for the ids and the
database does not break the call. -/
structure GetsPast (m : LedgerCloseMeta) : Prop where
  rows : ∀ result, extract scValString m = some result → ∀ row ∈ result.invocations, Accepted acceptsTime row
  saves : ∀ result, extract scValString m = some result → ∀ st db call e,
    (saveLedger acceptsTime st db call result.sequence result.invocations).error = some e → e.content = false
  follows : ∀ archive es w, run (step scValString acceptsTime archive) World.start es = some w →
    ∀ pid f result, w.processes pid = some (.follow f) → archive f.next = m → extract scValString m = some result →
      IdsLeft f.store w.db result.invocations →
        ∃ w', step scValString acceptsTime archive w (.followSaves pid Call.plain) = some w'

/-- A ledger stops the indexer: a follower at it is still at it after every run in which it is not stopped. -/
def Wedges (m : LedgerCloseMeta) : Prop :=
  ∀ archive es w, run (step scValString acceptsTime archive) World.start es = some w →
    ∀ pid f, w.processes pid = some (.follow f) → archive f.next = m →
      ∀ es' w', Event.stop pid ∉ es' → run (step scValString acceptsTime archive) w es' = some w' →
        w'.processes pid = some (.follow f)

/-- A ledger does not stop the indexer exactly when the columns hold its recorded calls; every other ledger stops it. -/
theorem gets_past_iff_storable (m : LedgerCloseMeta) :
    (GetsPast scValString acceptsTime m ↔ Storable scValString acceptsTime m) ∧
      (¬Storable scValString acceptsTime m → Wedges scValString acceptsTime m) := by
  refine ⟨⟨fun h => ?_, fun hs => ⟨?_, ?_, ?_⟩⟩, ?_⟩
  · cases hx : extract scValString m with
    | none => cases m <;> first | exact trivial | cases hx
    | some result => exact (accepted_extract_iff scValString acceptsTime hx).mp (h.rows result hx)
  · intro result hx
    exact (accepted_extract_iff scValString acceptsTime hx).mpr hs
  · intro result hx st db call e he
    exact not_content_of_accepted ((accepted_extract_iff scValString acceptsTime hx).mpr hs) he
  · rintro archive es w - pid f result hf rfl hx hids
    exact follower_goes_on hf hx hs hids
  · rintro hs archive es w hrun pid f hf rfl es' w' hes hrun'
    exact run_keeps_follower (World.sound_of_run hrun) hf hs hes hrun'

end

/-- A ledger with one call, of the function `set` with a string of one zero byte as its argument. -/
def nullLedger : LedgerCloseMeta :=
  .v1 ⟨1, 0⟩ [⟨⟨Bytes32.zero, 0⟩, .v3 [] [] [] (some ⟨none, [], [⟨none, .diagnostic,
    .v0 [.symbol fnCallSymbol, .bytes Bytes32.zero.bytes, .symbol [115, 101, 116]] (.string [0])⟩]⟩)⟩]

/-- The ledger's row is not accepted: the `jsonb` column rejects the argument. -/
theorem null_argument_stops :
    ¬∀ m, GetsPast (fun _ => []) (fun _ => true) m := by
  intro h
  have hs : Storable (fun _ => []) (fun _ => true) nullLedger :=
    (accepted_extract_iff (m := nullLedger) _ _ rfl).mp ((h nullLedger).rows _ rfl)
  have hcall := hs _ (List.mem_singleton.mpr rfl) (contractStrkey Bytes32.zero, [115, 101, 116], .string [0]) rfl
  have hnull : argsHoldNull (fun _ => []) (.string [0]) = true := by decide
  exact Bool.false_ne_true (hcall.args.symm.trans hnull)

end Soroscan

import Soroscan.Lemmas.Observed
import Soroscan.Lemmas.Accepts
import Soroscan.Theorems.DictionaryIds

/-!
# Saves commute

Over every run of committed calls by any number of processes: what the table says, and the worker checkpoint, depend only on
which batches were saved, not on their order, their repetitions, the processes that saved them or the ids that were handed
out.
-/

namespace Soroscan

/-- The database, and the processes that save into it. -/
structure Writers where
  db : Db
  stores : Nat → Store

/-- An empty database, and every process with empty caches. -/
def Writers.start : Writers := ⟨Db.empty, fun _ => Store.new⟩

/-- The rows of one call, and the ledger it saves them under. -/
structure Batch where
  ledgerSeq : BitVec 32
  rows : List InvocationRow

/-- A process saves a batch. -/
structure BatchSave where
  process : Nat
  call : Call
  batch : Batch

/-- The state after a call that is committed. -/
def commitStep (acceptsTime : Time → Bool) (w : Writers) (e : BatchSave) : Option Writers :=
  let r := saveLedger acceptsTime (w.stores e.process) w.db e.call e.batch.ledgerSeq e.batch.rows
  if r.error = none then some { db := r.db, stores := Function.update w.stores e.process r.store } else none

/-- The rows of some batches. -/
def batchRows (bs : List Batch) : List InvocationRow := bs.flatMap Batch.rows

/-- The greatest ledger of some batches. -/
def maxLedger (bs : List Batch) : Nat := (bs.map fun b => b.ledgerSeq.toNat).foldr max 0

/-- What the table says when exactly the given batches were saved: each row once. -/
def expected (bs : List Batch) : List Observed := ((batchRows bs).map Invocation.observed).dedup

section

variable {acceptsTime : Time → Bool}

/-- The state after some batches were saved: the caches agree with the dictionaries, every stored row says what a row of the
batches says, and every row of the batches is stored. -/
structure SavedBatches (bs : List Batch) (w : Writers) : Prop where
  sound : ∀ i, (w.stores i).Sound w.db.dicts
  keys_nodup : (w.db.transactions.map TxRow.key).Nodup
  origin : ∀ r ∈ w.db.transactions, ∃ inv ∈ batchRows bs, w.db.dicts.observe r = some inv.observed
  present : ∀ inv ∈ batchRows bs, inv.key ∈ w.db.transactions.map TxRow.key
  checkpoint : w.db.checkpointLedger worker = maxLedger bs

theorem savedBatches_start : SavedBatches [] Writers.start where
  sound _ := Store.new_sound _
  keys_nodup := List.nodup_nil
  origin r hr := by cases hr
  present inv hinv := by cases hinv
  checkpoint := rfl

/-- One more batch. -/
theorem SavedBatches.step {bs : List Batch} {w w' : Writers} {e : BatchSave} (h : SavedBatches bs w)
    (hone : OneSpelling e.batch.rows) (hstep : commitStep acceptsTime w e = some w') :
    SavedBatches (e.batch :: bs) w' := by
  unfold commitStep at hstep
  simp only at hstep
  split_ifs at hstep with herr
  obtain ⟨ps, d, written, hc⟩ := committed_of_ok herr
  have hsound := h.sound e.process
  have hgrows : w.db.dicts.Grows d := hc.resolved.grows
  have hcheckpoint := saveLedger_checkpoint acceptsTime (w.stores e.process) w.db e.call e.batch.ledgerSeq e.batch.rows
  rw [if_pos herr, h.checkpoint] at hcheckpoint
  cases hstep
  constructor
  · intro i
    show (Function.update w.stores e.process _ i).Sound _
    rw [hc.dicts]
    by_cases hi : i = e.process
    · subst hi
      rw [Function.update_self, hc.store]
      exact hsound.merged hc.prepared hc.resolved
    · rw [Function.update_of_ne hi]
      exact (h.sound i).grows hgrows
  · show (List.map TxRow.key (saveLedger acceptsTime _ _ _ _ _).db.transactions).Nodup
    rw [hc.transactions]
    exact keys_nodup_foldl_insertRow h.keys_nodup
  · intro r hr
    show ∃ inv ∈ batchRows (e.batch :: bs), (saveLedger acceptsTime _ _ _ _ _).db.dicts.observe r = some inv.observed
    rw [hc.dicts]
    rcases hc.mem_transactions hr with hold | ⟨p, hp, hrow, args, rfl⟩
    · obtain ⟨inv, hinv, hobs⟩ := h.origin r hold
      exact ⟨inv, List.mem_append_right _ hinv, hgrows.observe hobs⟩
    · exact ⟨p.row, List.mem_append_left _ hrow, hc.observe_written hsound hone hp args⟩
  · intro inv hinv
    rw [hc.mem_keys]
    rcases List.mem_append.mp hinv with hinv | hinv
    · exact Or.inr (List.mem_map_of_mem hinv)
    · exact Or.inl (h.present inv hinv)
  · rw [hcheckpoint, max_comm]
    rfl

/-- A run saves its batches. -/
theorem SavedBatches.run {bs : List Batch} {w w' : Writers} {es : List BatchSave} (h : SavedBatches bs w)
    (hone : ∀ e ∈ es, OneSpelling e.batch.rows) (hrun : run (commitStep acceptsTime) w es = some w') :
    SavedBatches ((es.map BatchSave.batch).reverse ++ bs) w' := by
  induction es generalizing w bs with
  | nil =>
    cases hrun
    exact h
  | cons e es ih =>
    rw [run_cons] at hrun
    obtain ⟨w₁, hstep, hrun⟩ := Option.bind_eq_some_iff.mp hrun
    have h₁ := ih (h.step (hone e List.mem_cons_self) hstep) (fun e' he' => hone e' (List.mem_cons_of_mem _ he')) hrun
    rw [List.map_cons, List.reverse_cons, List.append_assoc]
    exact h₁

/-- The rows of the same batches are the same. -/
theorem mem_batchRows_congr {bs bs' : List Batch} (h : ∀ b, b ∈ bs ↔ b ∈ bs') (inv : InvocationRow) :
    inv ∈ batchRows bs ↔ inv ∈ batchRows bs' := by
  simp only [batchRows, List.mem_flatMap, h]

theorem le_foldr_max {ns : List Nat} {n : Nat} (h : n ∈ ns) : n ≤ ns.foldr max 0 := by
  induction ns with
  | nil => cases h
  | cons m ns ih =>
    rw [List.foldr_cons]
    rcases List.mem_cons.mp h with rfl | h
    · exact le_max_left _ _
    · exact le_trans (ih h) (le_max_right _ _)

theorem foldr_max_le {ns : List Nat} {n : Nat} (h : ∀ m ∈ ns, m ≤ n) : ns.foldr max 0 ≤ n := by
  induction ns with
  | nil => exact Nat.zero_le _
  | cons m ns ih =>
    exact max_le (h m List.mem_cons_self) (ih fun m' hm' => h m' (List.mem_cons_of_mem _ hm'))

/-- The greatest ledger of the same batches is the same. -/
theorem maxLedger_congr {bs bs' : List Batch} (h : ∀ b, b ∈ bs ↔ b ∈ bs') : maxLedger bs = maxLedger bs' := by
  have key : ∀ {as as' : List Batch}, (∀ b ∈ as, b ∈ as') → maxLedger as ≤ maxLedger as' := by
    intro as as' hsub
    refine foldr_max_le fun m hm => ?_
    obtain ⟨b, hb, rfl⟩ := List.mem_map.mp hm
    exact le_foldr_max (List.mem_map_of_mem (hsub b hb))
  exact le_antisymm (key fun b hb => (h b).mp hb) (key fun b hb => (h b).mpr hb)

/-- The same state, described by the same batches in another order and other repetitions. -/
theorem SavedBatches.congr {bs bs' : List Batch} {w : Writers} (h : SavedBatches bs w) (heq : ∀ b, b ∈ bs ↔ b ∈ bs') :
    SavedBatches bs' w where
  sound := h.sound
  keys_nodup := h.keys_nodup
  origin r hr := by
    obtain ⟨inv, hinv, hobs⟩ := h.origin r hr
    exact ⟨inv, (mem_batchRows_congr heq inv).mp hinv, hobs⟩
  present inv hinv := h.present inv ((mem_batchRows_congr heq inv).mpr hinv)
  checkpoint := h.checkpoint.trans (maxLedger_congr heq)

/-- What a stored row says has the key of the row. -/
theorem key_of_observe {d : Dicts} {r : TxRow} {o : Observed} (h : d.observe r = some o) : (o.txHash, o.closedAt) = r.key := by
  unfold Dicts.observe at h
  obtain ⟨raw, -, h⟩ := Option.bind_eq_some_iff.mp h
  obtain ⟨name, -, rfl⟩ := Option.map_eq_some_iff.mp h
  rfl

/-- Every stored row says something, so that as many rows are observed as are stored. -/
theorem SavedBatches.observed_eq {bs : List Batch} {w : Writers} (h : SavedBatches bs w) :
    w.db.observed.map (fun o => (o.txHash, o.closedAt)) = w.db.transactions.map TxRow.key := by
  have horigin := h.origin
  unfold Db.observed
  generalize w.db.transactions = rows at horigin
  induction rows with
  | nil => rfl
  | cons r rows ih =>
    obtain ⟨inv, -, hobs⟩ := horigin r List.mem_cons_self
    rw [List.filterMap_cons_some hobs, List.map_cons, List.map_cons, key_of_observe hobs,
      ih fun r' hr' => horigin r' (List.mem_cons_of_mem _ hr')]

theorem SavedBatches.observed_length {bs : List Batch} {w : Writers} (h : SavedBatches bs w) :
    w.db.observed.length = w.db.transactions.length := by
  have := congrArg List.length h.observed_eq
  rwa [List.length_map, List.length_map] at this

theorem SavedBatches.observed_nodup {bs : List Batch} {w : Writers} (h : SavedBatches bs w) : w.db.observed.Nodup := by
  refine List.Nodup.of_map (fun o => (o.txHash, o.closedAt)) ?_
  rw [h.observed_eq]
  exact h.keys_nodup

/-- What is observed is what the rows of the batches say, when rows with one key are one row. -/
theorem SavedBatches.mem_observed {bs : List Batch} {w : Writers} (h : SavedBatches bs w)
    (hsame : ∀ inv ∈ batchRows bs, ∀ inv' ∈ batchRows bs, inv.key = inv'.key → inv = inv') (o : Observed) :
    o ∈ w.db.observed ↔ o ∈ expected bs := by
  rw [Db.observed, List.mem_filterMap, expected, List.mem_dedup, List.mem_map]
  constructor
  · rintro ⟨r, hr, ho⟩
    obtain ⟨inv, hinv, hobs⟩ := h.origin r hr
    rw [ho, Option.some.injEq] at hobs
    exact ⟨inv, hinv, hobs.symm⟩
  · rintro ⟨inv, hinv, rfl⟩
    obtain ⟨r, hr, hkey⟩ := List.mem_map.mp (h.present inv hinv)
    obtain ⟨inv', hinv', hobs⟩ := h.origin r hr
    have hk : inv'.key = inv.key := (key_of_observe hobs).trans hkey
    rw [hsame inv' hinv' inv hinv hk] at hobs
    exact ⟨r, hr, hobs⟩

/-- Every run of committed calls from an empty database that uses exactly the given batches, each at least once, leaves a table
that says each row of the batches once and nothing else, and the greatest ledger of the batches as the worker checkpoint. Rows
of the batches with one key are one row, and no batch spells one contract id in two ways. -/
theorem saves_commute (bs : List Batch) (hsame : ∀ inv ∈ batchRows bs, ∀ inv' ∈ batchRows bs, inv.key = inv'.key → inv = inv')
    (hone : ∀ b ∈ bs, OneSpelling b.rows) (es : List BatchSave) (huses : ∀ b, b ∈ es.map BatchSave.batch ↔ b ∈ bs) (w : Writers)
    (hrun : run (commitStep acceptsTime) Writers.start es = some w) :
    w.db.observed.Perm (expected bs) ∧ w.db.transactions.length = (expected bs).length ∧
      w.db.checkpointLedger worker = maxLedger bs := by
  have hone' : ∀ e ∈ es, OneSpelling e.batch.rows := fun e he =>
    hone e.batch ((huses e.batch).mp (List.mem_map_of_mem he))
  have hall := savedBatches_start.run hone' hrun
  have hbs : SavedBatches bs w := hall.congr fun b => by
    rw [List.append_nil, List.mem_reverse, huses]
  have hperm : w.db.observed.Perm (expected bs) :=
    (List.perm_ext_iff_of_nodup hbs.observed_nodup (List.nodup_dedup _)).mpr (hbs.mem_observed hsame)
  exact ⟨hperm, by rw [← hbs.observed_length, hperm.length_eq], hbs.checkpoint⟩

end

/-! ## Batches of plain rows -/

/-- A call of a contract in a transaction. -/
def plainRowOf (contract : Text) (tx : UInt8) : InvocationRow :=
  { plainRow with contractID := contract, txHash := Bytes32.fill tx }

/-- The zero contract as its strkey, and the same with a line break behind it. -/
def zeroPlain : Text := contractStrkey Bytes32.zero

def zeroBroken : Text := zeroPlain ++ ['\n']

/-- Three batches: two contracts called in one ledger, one of them again in another, where it is spelled with a line break, and
an empty ledger. -/
def threeBatches : List Batch :=
  [⟨3, [plainRowOf zeroPlain 1, plainRowOf (contractStrkey (Bytes32.fill 1)) 2]⟩, ⟨5, [plainRowOf zeroBroken 3]⟩, ⟨4, []⟩]

/-- Two processes save them, the later ledger first and one batch by both, and one batch is replayed. -/
def savedTwice : List BatchSave :=
  (threeBatches.getLast?.toList ++ threeBatches.reverse).map (⟨0, Call.plain, ·⟩) ++ threeBatches.map (⟨1, Call.plain, ·⟩)

theorem oneSpelling_threeBatches : ∀ b ∈ threeBatches, OneSpelling b.rows := by
  intro b hb
  simp only [threeBatches, List.mem_cons, List.not_mem_nil, or_false] at hb
  rcases hb with rfl | rfl | rfl
  · refine oneSpelling_of_canonical fun row hrow => ?_
    rcases List.mem_cons.mp hrow with rfl | hrow
    · exact ⟨Bytes32.zero, rfl⟩
    · rw [List.mem_singleton.mp hrow]
      exact ⟨Bytes32.fill 1, rfl⟩
  · intro row hrow row' hrow' _ _ _
    rw [List.mem_singleton.mp hrow, List.mem_singleton.mp hrow']
  · intro row hrow
    cases hrow

/-- The batches saved by two processes, out of order and with replays: the table says each of the three rows once. -/
theorem saves_commute_replayed : ∃ w, run (commitStep fun _ => true) Writers.start savedTwice = some w ∧
    w.db.observed.Perm (expected threeBatches) ∧ w.db.transactions.length = (expected threeBatches).length ∧
      w.db.checkpointLedger worker = maxLedger threeBatches := by
  have hsome : (run (commitStep fun _ => true) Writers.start savedTwice).isSome = true := by decide +kernel
  obtain ⟨w, hrun⟩ := Option.isSome_iff_exists.mp hsome
  have hkeys : ((batchRows threeBatches).map Invocation.key).Nodup := by decide +kernel
  have huses : ∀ b, b ∈ savedTwice.map BatchSave.batch ↔ b ∈ threeBatches := fun b => by
    simp only [savedTwice, List.map_append, List.map_map, Function.comp_def, List.map_id', List.mem_append, List.mem_reverse]
    exact ⟨fun h => h.elim (fun h => h.elim (fun h => List.mem_of_getLast? (Option.mem_toList.mp h)) id) id, Or.inr⟩
  exact ⟨w, hrun, saves_commute threeBatches (fun inv hinv inv' hinv' => List.inj_on_of_nodup_map hkeys hinv hinv')
    oneSpelling_threeBatches savedTwice huses w hrun⟩

/-- The zero contract called once, and called in two spellings in one batch. -/
def oneSpelled : Batch := ⟨1, [plainRowOf zeroPlain 1]⟩

def twoSpelled : Batch := ⟨2, [plainRowOf zeroPlain 2, plainRowOf zeroBroken 3]⟩

/-- No two of the three rows have one key, both orders of the two batches are committed, and they leave different rows: when the
batch with the two spellings comes first, a row of it has no contract. -/
theorem orders_differ : (∀ inv ∈ batchRows [oneSpelled, twoSpelled], ∀ inv' ∈ batchRows [oneSpelled, twoSpelled],
      inv.key = inv'.key → inv = inv') ∧
    ∃ w w', run (commitStep fun _ => true) Writers.start [⟨0, Call.plain, oneSpelled⟩, ⟨0, Call.plain, twoSpelled⟩] = some w ∧
      run (commitStep fun _ => true) Writers.start [⟨0, Call.plain, twoSpelled⟩, ⟨0, Call.plain, oneSpelled⟩] = some w' ∧
      w.db.observed.length = 3 ∧ w'.db.observed.length = 2 ∧ ¬w.db.observed.Perm w'.db.observed := by
  have hkeys : ((batchRows [oneSpelled, twoSpelled]).map Invocation.key).Nodup := by decide +kernel
  have hfirst : (run (commitStep fun _ => true) Writers.start [⟨0, Call.plain, oneSpelled⟩, ⟨0, Call.plain, twoSpelled⟩]).map
      (fun w => w.db.observed.length) = some 3 := by decide +kernel
  have hsecond : (run (commitStep fun _ => true) Writers.start [⟨0, Call.plain, twoSpelled⟩, ⟨0, Call.plain, oneSpelled⟩]).map
      (fun w => w.db.observed.length) = some 2 := by decide +kernel
  obtain ⟨w, hw, hthree⟩ := Option.map_eq_some_iff.mp hfirst
  obtain ⟨w', hw', htwo⟩ := Option.map_eq_some_iff.mp hsecond
  refine ⟨fun inv hinv inv' hinv' => List.inj_on_of_nodup_map hkeys hinv hinv', w, w', hw, hw', hthree, htwo, fun hperm => ?_⟩
  have := hperm.length_eq
  omega

end Soroscan

import Soroscan.Lemmas.Recorded
import Soroscan.Lib.BigEndian
import Soroscan.Theorems.Follower
import Soroscan.Theorems.Storable

/-!
# The index and the archive

What the index is for: to hold, row for row, the invocations of the ledgers that were saved. Over every run of any number of
followers and backfills, with failures, stops and restarts at any point, the table is exactly that, its arguments and addresses
included; and the numbers the index answers for a ledger are those of the archive.
-/

namespace Soroscan

section

variable {scValString : ScVal → Bytes} {acceptsTime : Time → Bool} {archive : BitVec 32 → LedgerCloseMeta}

/-- Each transaction of the archive is in one ledger, and there once. -/
structure OneEach (scValString : ScVal → Bytes) (archive : BitVec 32 → LedgerCloseMeta) : Prop where
  within : ∀ q, ((archived scValString archive q).map Invocation.key).Nodup
  across : ClosesOnce scValString archive

/-- What the index is to hold: the invocations of some ledgers. -/
def invocationsOf (scValString : ScVal → Bytes) (archive : BitVec 32 → LedgerCloseMeta) (ledgers : List (BitVec 32)) :
    List Invocation :=
  ledgers.dedup.flatMap (archived scValString archive)

theorem mem_invocationsOf {ledgers : List (BitVec 32)} {inv : Invocation} :
    inv ∈ invocationsOf scValString archive ledgers ↔ ∃ q ∈ ledgers, inv ∈ archived scValString archive q := by
  simp only [invocationsOf, List.mem_flatMap, List.mem_dedup]

/-- Invocations of the archive with one key are one. -/
theorem OneEach.unique (h : OneEach scValString archive) {q q' : BitVec 32} {inv inv' : Invocation}
    (hinv : inv ∈ archived scValString archive q) (hinv' : inv' ∈ archived scValString archive q') (hkey : inv.key = inv'.key) :
    inv = inv' := by
  obtain rfl := h.across q q' inv inv' hinv hinv' hkey
  exact List.inj_on_of_nodup_map (h.within q) hinv hinv' hkey

theorem OneEach.nodup (h : OneEach scValString archive) (ledgers : List (BitVec 32)) :
    (invocationsOf scValString archive ledgers).Nodup := by
  refine List.nodup_flatMap.mpr ⟨fun q _ => List.Nodup.of_map _ (h.within q), ?_⟩
  refine (List.nodup_dedup ledgers).imp fun {q q'} hne inv hinv hinv' => ?_
  exact hne (h.across q q' inv inv hinv hinv' rfl)

/-- An archived invocation names its contract by a strkey. -/
theorem canonical_of_archived {q : BitVec 32} {inv : Invocation} (h : inv ∈ archived scValString archive q) : inv.Canonical := by
  have htx : ∀ header txs, inv ∈ (extractTransactions scValString header txs).invocations → inv.Canonical := by
    intro header txs hinv
    obtain ⟨tx, -, htx⟩ := List.mem_filterMap.mp hinv
    rw [invocationOf_eq] at htx
    obtain ⟨call, hcall, rfl⟩ := Option.map_eq_some_iff.mp htx
    exact contractID_of_recordedCall hcall
  unfold archived at h
  cases hm : archive q with
  | v0 header txs =>
    rw [hm] at h
    cases h
  | v1 header txs =>
    rw [hm] at h
    exact htx header txs h
  | v2 header txs =>
    rw [hm] at h
    exact htx header txs h
  | other v =>
    rw [hm] at h
    cases h

/-! ## What every step keeps -/

/-- Every row of the table records an invocation of a saved ledger, no two rows have one key, and the ids of the addresses fit
their column. -/
structure World.Indexes (scValString : ScVal → Bytes) (archive : BitVec 32 → LedgerCloseMeta) (w : World) : Prop where
  origin : ∀ r ∈ w.db.transactions, ∃ q ∈ w.saved, ∃ inv ∈ archived scValString archive q, Records w.db.dicts inv r
  keys_nodup : (w.db.transactions.map TxRow.key).Nodup
  last : w.db.dicts.argAddresses.last ≤ serialMax

theorem World.indexes_start : World.start.Indexes scValString archive where
  origin r hr := by cases hr
  keys_nodup := List.nodup_nil
  last := Nat.zero_le _

/-- A step that leaves the rows and only adds to the dictionaries. -/
theorem World.Indexes.quiet {w w' : World} (h : w.Indexes scValString archive)
    (htransactions : w'.db.transactions = w.db.transactions) (hsaved : w'.saved = w.saved)
    (hgrows : w.db.dicts.Grows w'.db.dicts) (hlast : w'.db.dicts.argAddresses.last ≤ serialMax) :
    w'.Indexes scValString archive where
  origin r hr := by
    rw [htransactions] at hr
    obtain ⟨q, hq, inv, hinv, hrecords⟩ := h.origin r hr
    rw [hsaved]
    exact ⟨q, hq, inv, hinv, hrecords.grows hgrows⟩
  keys_nodup := by
    rw [htransactions]
    exact h.keys_nodup
  last := hlast

/-- A round that failed leaves what the rows are. -/
theorem World.Indexes.failed {w w' : World} (h : w.Indexes scValString archive) {st : Store} {call : Call}
    (hround : FailedRound acceptsTime st call w w') : w'.Indexes scValString archive := by
  have hquiet := hround.quiet
  refine h.quiet hquiet.transactions hquiet.saved ?_ ?_ <;> rcases hround with rfl | ⟨seq, rows, -, rfl⟩
  · exact Dicts.Grows.refl _
  · exact (kept_saveLedger acceptsTime st w.db call seq rows).grows
  · exact h.last
  · exact saveLedger_last_le acceptsTime st call seq rows h.last

/-- A save of the invocations of some ledgers keeps what the rows are. -/
theorem World.Indexes.saved {w w' : World} (h : w.Indexes scValString archive) (ledgers : List (BitVec 32)) {st : Store}
    (hsound : st.Sound w.db.dicts) {call : Call} {seq : BitVec 32} {rows : List InvocationRow}
    (herr : (saveLedger acceptsTime st w.db call seq rows).error = none)
    (hdb : w'.db = (saveLedger acceptsTime st w.db call seq rows).db) (hsaved : w'.saved = ledgers ++ w.saved)
    (hrows : ∀ inv ∈ rows, ∃ q ∈ ledgers, inv ∈ archived scValString archive q) : w'.Indexes scValString archive := by
  obtain ⟨ps, d, written, hc⟩ := committed_of_ok herr
  have hgrows := (kept_saveLedger acceptsTime st w.db call seq rows).grows
  rw [← hdb] at hgrows
  have hcanon : ∀ row ∈ rows, row.Canonical := fun row hrow => by
    obtain ⟨q, -, hinv⟩ := hrows row hrow
    exact canonical_of_archived hinv
  constructor
  · intro r hr
    rw [hsaved]
    rcases hc.records hsound h.last hcanon (hdb ▸ hr) with hr | ⟨inv, hinv, hrecords⟩
    · obtain ⟨q, hq, inv, hinv, hrecords⟩ := h.origin r hr
      exact ⟨q, List.mem_append_right _ hq, inv, hinv, hrecords.grows hgrows⟩
    · obtain ⟨q, hq, harchived⟩ := hrows inv hinv
      exact ⟨q, List.mem_append_left _ hq, inv, harchived, hdb ▸ hrecords⟩
  · rw [hdb, hc.transactions]
    exact keys_nodup_foldl_insertRow h.keys_nodup
  · rw [hdb]
    exact saveLedger_last_le acceptsTime st call seq rows h.last

/-- Every step keeps what the rows are. -/
theorem World.Indexes.step {w w' : World} {e : Event} (h : w.Indexes scValString archive) (hw : w.Sound)
    (hstep : step scValString acceptsTime archive w e = some w') : w'.Indexes scValString archive := by
  cases steps_of_step hstep with
  | followRefused => exact h
  | followStarts => exact h.quiet rfl rfl (Dicts.Grows.refl _) h.last
  | @followSaves pid call f result hf hresult hok =>
    refine h.saved [f.next] (hw.stores pid _ hf) hok rfl rfl fun inv hinv => ⟨f.next, List.mem_singleton_self _, ?_⟩
    rwa [archived_of_extract hresult]
  | followFails hf hround => exact h.failed hround
  | backfillStarts => exact h.quiet rfl rfl (Dicts.Grows.refl _) h.last
  | @batchSaves pid call b results hb _ _ hresults hok =>
    refine h.saved _ (hw.stores pid _ hb) hok rfl rfl fun inv hinv => ?_
    obtain ⟨result, hresult, hinv⟩ := List.mem_flatMap.mp hinv
    obtain ⟨q, hq, hx⟩ := exists_of_forall₂_right hresults hresult
    exact ⟨q, hq, by rwa [archived_of_extract hx]⟩
  | batchFails hb hround => exact h.failed hround
  | batchCheckpoint => exact h.quiet rfl rfl (Dicts.Grows.refl _) h.last
  | stops => exact h.quiet rfl rfl (Dicts.Grows.refl _) h.last

/-- What holds in every reachable state of the indexer. -/
structure World.Reached (scValString : ScVal → Bytes) (archive : BitVec 32 → LedgerCloseMeta) (w : World) : Prop where
  sound : w.Sound
  indexes : w.Indexes scValString archive
  kept : RowsKept scValString archive w

theorem World.reached_start : World.start.Reached scValString archive := ⟨World.sound_start, World.indexes_start, RowsKept.start⟩

theorem World.Reached.step (hdel : Delivers scValString archive) {w w' : World} {e : Event} (h : w.Reached scValString archive)
    (hstep : Soroscan.step scValString acceptsTime archive w e = some w') : w'.Reached scValString archive :=
  ⟨h.sound.step hstep, h.indexes.step h.sound hstep, h.kept.step hdel hstep⟩

theorem World.reached_of_run (hdel : Delivers scValString archive) {w w' : World} {es : List Event}
    (h : w.Reached scValString archive) (hrun : run (Soroscan.step scValString acceptsTime archive) w es = some w') :
    w'.Reached scValString archive :=
  run_invariant (P := World.Reached scValString archive) (fun _ _ _ hs hstep => hs.step hdel hstep) h hrun

/-! ## The table -/

/-- Every stored row with the invocation it records. -/
theorem World.Indexes.exists_recorded {w : World} (h : w.Indexes scValString archive) :
    ∃ invs, List.Forall₂ (Records w.db.dicts) invs w.db.transactions ∧
      ∀ inv ∈ invs, inv ∈ invocationsOf scValString archive w.saved := by
  have horigin := h.origin
  generalize w.db.transactions = rows at horigin
  induction rows with
  | nil => exact ⟨[], List.Forall₂.nil, by simp⟩
  | cons r rows ih =>
    obtain ⟨q, hq, inv, hinv, hrecords⟩ := horigin r List.mem_cons_self
    obtain ⟨invs, hinvs, hall⟩ := ih fun r' hr' => horigin r' (List.mem_cons_of_mem _ hr')
    refine ⟨inv :: invs, List.Forall₂.cons hrecords hinvs, fun inv' hinv' => ?_⟩
    rcases List.mem_cons.mp hinv' with rfl | hinv'
    · exact mem_invocationsOf.mpr ⟨q, hq, hinv⟩
    · exact hall inv' hinv'

theorem keys_of_recorded {d : Dicts} {invs : List Invocation} {rows : List TxRow} (h : List.Forall₂ (Records d) invs rows) :
    rows.map TxRow.key = invs.map Invocation.key := by
  induction h with
  | nil => rfl
  | cons hr _ ih => rw [List.map_cons, List.map_cons, hr.key_eq, ih]

/-- The table of a reachable state is, row for row, the invocations of the saved ledgers, each once. -/
theorem World.Reached.table (hone : OneEach scValString archive) {w : World} (h : w.Reached scValString archive) :
    ∃ invs, List.Forall₂ (Records w.db.dicts) invs w.db.transactions ∧
      invs.Perm (invocationsOf scValString archive w.saved) := by
  obtain ⟨invs, hinvs, hall⟩ := h.indexes.exists_recorded
  have hkeys := keys_of_recorded hinvs
  have hnodup : invs.Nodup := List.Nodup.of_map Invocation.key (hkeys ▸ h.indexes.keys_nodup)
  refine ⟨invs, hinvs, (List.perm_ext_iff_of_nodup hnodup (hone.nodup _)).mpr fun inv => ⟨hall inv, fun hinv => ?_⟩⟩
  obtain ⟨q, hq, harchived⟩ := mem_invocationsOf.mp hinv
  have hkey := h.kept.present q hq inv harchived
  rw [hkeys] at hkey
  obtain ⟨inv', hinv', heq⟩ := List.mem_map.mp hkey
  obtain ⟨q', -, harchived'⟩ := mem_invocationsOf.mp (hall inv' hinv')
  rwa [← hone.unique harchived' harchived heq]

/-- In every state that followers and backfills can reach, the table is, row for row, the invocations the archive holds for the
saved ledgers, each once: the ids of each row lead back to the contract, the function and the addresses of its invocation. -/
theorem index_refines_archive (hdel : Delivers scValString archive) (hone : OneEach scValString archive) {es : List Event}
    {w : World} (hrun : run (Soroscan.step scValString acceptsTime archive) World.start es = some w) :
    ∃ invs, List.Forall₂ (Records w.db.dicts) invs w.db.transactions ∧
      invs.Perm (invocationsOf scValString archive w.saved) :=
  (World.reached_of_run hdel World.reached_start hrun).table hone

end

/-! ## An archive of calls -/

/-- The hashes of the transactions of a ledger, told apart by a byte. -/
def callHash (seq : BitVec 32) (b : UInt8) : Bytes32 :=
  ⟨bigEndian 4 seq.toNat ++ List.replicate 28 b, by rw [List.length_append, length_bigEndian, List.length_replicate]⟩

theorem callHash_ne (seq : BitVec 32) : callHash seq 0 ≠ callHash seq 1 := fun heq =>
  absurd (List.append_cancel_left (congrArg Bytes32.bytes heq)) (by decide)

/-- A call of the function `set` with an integer that double precision does not have. -/
def setCall (seq : BitVec 32) : TransactionResultMeta :=
  ⟨⟨callHash seq 0, 100⟩, .v3 [] [] [] (some ⟨none, [], [⟨none, .diagnostic,
    .v0 [.symbol fnCallSymbol, .bytes Bytes32.zero.bytes, .symbol [115, 101, 116]] (.i64 9007199254740993)⟩]⟩)⟩

/-- A call of another contract's function `get` with an address, in a meta of the next version. -/
def getCall (seq : BitVec 32) : TransactionResultMeta :=
  ⟨⟨callHash seq 1, 200⟩, .v4 [] [] [] (some ⟨none⟩) [] [⟨none, .diagnostic,
    .v0 [.symbol fnCallSymbol, .bytes (Bytes32.fill 1).bytes, .symbol [103, 101, 116]] (.address (.contract Bytes32.zero))⟩]⟩

/-- An archive in which every ledger but 0 holds such two calls. -/
def callArchive (seq : BitVec 32) : LedgerCloseMeta :=
  .v1 ⟨seq, seq.setWidth 64⟩ (if seq = 0 then [] else [setCall seq, getCall seq])

theorem delivers_callArchive : Delivers (fun _ => []) callArchive := by
  intro seq result h
  cases h
  rfl

/-- The invocations of the two calls of a ledger. -/
def callRows (q : BitVec 32) : List Invocation :=
  [rowOf (fun _ => []) ⟨q, q.setWidth 64⟩ (setCall q)
      (contractStrkey Bytes32.zero, [115, 101, 116], .i64 9007199254740993),
   rowOf (fun _ => []) ⟨q, q.setWidth 64⟩ (getCall q)
      (contractStrkey (Bytes32.fill 1), [103, 101, 116], .address (.contract Bytes32.zero))]

theorem archived_callArchive (q : BitVec 32) : archived (fun _ => []) callArchive q = if q = 0 then [] else callRows q := by
  have hextract : archived (fun _ => []) callArchive q =
      (extractTransactions (fun _ => []) ⟨q, q.setWidth 64⟩ (if q = 0 then [] else [setCall q, getCall q])).invocations := rfl
  rw [hextract]
  split_ifs <;> rfl

theorem mem_callRows {q : BitVec 32} {inv : Invocation} (h : inv ∈ archived (fun _ => []) callArchive q) : inv ∈ callRows q := by
  rw [archived_callArchive] at h
  split_ifs at h
  · cases h
  · exact h

theorem closedAt_of_mem_callRows {q : BitVec 32} {inv : Invocation} (h : inv ∈ callRows q) :
    inv.closedAt = closeTimeOf ⟨q, q.setWidth 64⟩ := by
  simp only [callRows, List.mem_cons, List.not_mem_nil, or_false] at h
  rcases h with rfl | rfl <;> rfl

theorem oneEach_callArchive : OneEach (fun _ => []) callArchive where
  within q := by
    have hhashes : (callRows q).map Invocation.txHash = [callHash q 0, callHash q 1] := rfl
    have hnodup : ((callRows q).map Invocation.key).Nodup := by
      refine List.Nodup.of_map Prod.fst ?_
      rw [List.map_map, show Prod.fst ∘ Invocation.key = Invocation.txHash from rfl, hhashes]
      simpa using callHash_ne q
    rw [archived_callArchive]
    split_ifs
    · exact List.nodup_nil
    · exact hnodup
  across q q' inv inv' hinv hinv' hkey := by
    have htime : closeTimeOf ⟨q, q.setWidth 64⟩ = closeTimeOf ⟨q', q'.setWidth 64⟩ := by
      rw [← closedAt_of_mem_callRows (mem_callRows hinv), ← closedAt_of_mem_callRows (mem_callRows hinv')]
      exact congrArg Prod.snd hkey
    have hq : (q.setWidth 64).toInt = (q'.setWidth 64).toInt :=
      add_right_cancel (Int.eq_of_mul_eq_mul_right (by decide) htime)
    have hnat := congrArg BitVec.toNat (BitVec.eq_of_toInt_eq hq)
    rw [BitVec.toNat_setWidth_of_le (by decide), BitVec.toNat_setWidth_of_le (by decide)] at hnat
    exact BitVec.eq_of_toNat_eq hnat

/-- A follower that begins at the first ledger with contracts saves it and the next one. In between, a backfill saves the ledger
before them, and the first one again, after a round that failed. -/
def callsSaved : List Event :=
  [.startFollow 0 50457424, .followSaves 0 Call.plain, .startBackfill 1 50457423 50457424 2, .batchFails 1 false Call.plain,
   .batchSaves 1 Call.plain, .followSaves 0 Call.plain]

/-- The run leaves one row for each of the six calls. -/
theorem index_refines_calls :
    ∃ w, run (step (fun _ => []) (fun _ => true) callArchive) World.start callsSaved = some w ∧ w.db.transactions.length = 6 ∧
      ∃ invs, List.Forall₂ (Records w.db.dicts) invs w.db.transactions ∧
        invs.Perm (invocationsOf (fun _ => []) callArchive w.saved) := by
  have hend : (run (step (fun _ => []) (fun _ => true) callArchive) World.start callsSaved).map
      (fun w => w.db.transactions.length) = some 6 := by
    decide +kernel
  obtain ⟨w, hw, hlength⟩ := Option.map_eq_some_iff.mp hend
  exact ⟨w, hw, hlength, index_refines_archive delivers_callArchive oneEach_callArchive hw⟩

end Soroscan

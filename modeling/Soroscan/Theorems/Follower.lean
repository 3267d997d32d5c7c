import Soroscan.Lemmas.Indexer

/-!
# The follower and the saved ledgers

Over every run of any number of followers and backfills, with failures, stops and restarts at any point: when no ledger is
skipped behind the worker checkpoint, and when an indexed ledger is a saved one. Both fail, because a backfill saves its
batches through the same checkpoint and a follower can begin anywhere; each has its exact condition here.
-/

namespace Soroscan

section

variable {scValString : ScVal → Bytes} {acceptsTime : Time → Bool} {archive : BitVec 32 → LedgerCloseMeta}

/-! ## No ledger is skipped -/

/-- Every ledger from the first follower's first one up to the worker checkpoint has been saved, and a follower that goes on
after the checkpoint leaves no unsaved one behind it. -/
def NoneSkipped (w : World) : Prop :=
  ∀ s, w.firstStart = some s → Covered s w ∧
    ∀ startFlag f, startFollow w.db startFlag = some f → f.resumed = true → ∀ q, s ≤ q → q < f.next → q ∈ w.saved

/-- The condition on a step under which no ledger is skipped. The first follower must not begin past the last ledger number,
unless everything was saved; and a save must fill what it would leave behind. -/
def SkipsNone (w : World) (e : Event) : Prop :=
  (∀ pid startFlag, e = .startFollow pid startFlag → w.firstStart = none → w.checkpoint = lastLedger → ∀ q, q ∈ w.saved) ∧
    ∀ s, w.firstStart = some s → Fills s w e

/-- A follower that goes on after the checkpoint is right behind it. -/
theorem resumed_le {w : World} {startFlag q : BitVec 32} {f : Follow} (hf : startFollow w.db startFlag = some f)
    (hres : f.resumed = true) (hq : q < f.next) : q.toNat ≤ w.checkpoint := by
  have ht := (tracks_startFollow hf []).resumed hres
  have hnext : f.next = f.began := by
    unfold startFollow at hf
    split_ifs at hf <;> cases hf <;> rfl
  rw [hnext, BitVec.lt_def] at hq
  have hc : w.checkpoint = w.db.checkpointLedger worker := rfl
  omega

theorem noneSkipped_iff {w : World} : NoneSkipped w ↔ ∀ s, w.firstStart = some s → Covered s w := by
  refine ⟨fun h s hs => (h s hs).1, fun h s hs => ⟨h s hs, fun startFlag f hf hres q hq hlt => ?_⟩⟩
  exact h s hs q hq (resumed_le hf hres hlt)

/-- The first follower begins behind every ledger the checkpoint covers, as long as the ledger numbers have not run out. -/
theorem covered_began_iff {w : World} (hi : w.Inv) {startFlag : BitVec 32} {f : Follow}
    (hf : startFollow w.db startFlag = some f) :
    Covered f.began w ↔ (w.checkpoint = lastLedger → ∀ q, q ∈ w.saved) := by
  have hle := hi.checkpoint_le
  unfold startFollow at hf
  split_ifs at hf with hzero hflag
  · cases hf
    have hc : w.checkpoint = 0 := hzero
    have hpos : 0 < startFlag.toNat := Nat.pos_of_ne_zero fun h => hflag (BitVec.eq_of_toNat_eq h)
    refine iff_of_true (fun q hq hqc => ?_) (fun hlast => ?_)
    · have hq : startFlag ≤ q := hq
      rw [BitVec.le_def] at hq
      exact absurd hqc (by omega)
    · rw [hc] at hlast
      cases hlast
  · cases hf
    have hone : (1 : BitVec 32).toNat = 1 := rfl
    have hbegan : (uint32 (w.db.checkpointLedger worker) + 1).toNat = (w.checkpoint + 1) % 2 ^ 32 := by
      rw [BitVec.toNat_add, hone, uint32, BitVec.toNat_ofNat, Nat.mod_add_mod]
      rfl
    constructor
    · intro hcov hlast q
      refine hcov q ?_ ?_
      · show uint32 (w.db.checkpointLedger worker) + 1 ≤ q
        rw [BitVec.le_def, hbegan, hlast]
        simp [lastLedger]
      · rw [hlast]
        exact toNat_le_lastLedger q
    · intro hall q hq hqc
      by_cases hlast : w.checkpoint = lastLedger
      · exact hall hlast q
      · have hq : uint32 (w.db.checkpointLedger worker) + 1 ≤ q := hq
        rw [BitVec.le_def, hbegan, Nat.mod_eq_of_lt (by unfold lastLedger at hle hlast; omega)] at hq
        exact absurd hqc (by omega)

/-- A step leaves no ledger skipped exactly when it meets the condition. -/
theorem step_noneSkipped_iff (hdel : Delivers scValString archive) {w w' : World} {e : Event} (hi : w.Inv)
    (hn : NoneSkipped w) (h : step scValString acceptsTime archive w e = some w') : NoneSkipped w' ↔ SkipsNone w e := by
  rw [noneSkipped_iff] at hn ⊢
  have hcov := fun s (hs : w.firstStart = some s) => step_covered_iff hdel hi (hn s hs) h
  rcases step_firstStart h with hfirst | ⟨pid, startFlag, f, rfl, hf, hnone, hsome⟩
  · rw [hfirst]
    constructor
    · intro hw'
      refine ⟨fun pid startFlag he hnone hlast q => ?_, fun s hs => (hcov s hs).mp (hw' s hs)⟩
      subst he
      simp only [step] at h
      split_ifs at h
      split at h
      · rename_i hf
        unfold startFollow at hf
        split_ifs at hf with hzero
        have hc : w.checkpoint = 0 := hzero
        rw [hc] at hlast
        cases hlast
      · cases h
        simp [hnone] at hfirst
    · exact fun hok s hs => (hcov s hs).mpr (hok.2 s hs)
  · have hq := quietStep_of_step rfl h
    have hsame : Covered f.began w' ↔ Covered f.began w := by
      unfold Covered
      rw [hq.saved, hq.checkpoint]
    have hwant : (∀ s, w'.firstStart = some s → Covered s w') ↔ (w.checkpoint = lastLedger → ∀ q, q ∈ w.saved) := by
      rw [hsome, ← covered_began_iff hi hf, ← hsame]
      simp
    rw [hwant]
    constructor
    · refine fun hlast => ⟨fun _ _ _ _ => hlast, fun s hs => ?_⟩
      rw [hnone] at hs
      cases hs
    · exact fun hok => hok.1 pid startFlag rfl hnone

/-- In a run from an empty database, no ledger is ever skipped exactly when every event that happens meets the condition. -/
theorem follower_skips_none_iff (hdel : Delivers scValString archive) (es : List Event) :
    (∀ w ∈ states (step scValString acceptsTime archive) World.start es, NoneSkipped w) ↔
      EachStep (step scValString acceptsTime archive) SkipsNone World.start es := by
  refine states_iff_eachStep (I := World.Inv) (P := NoneSkipped) (fun _ _ _ hi h => hi.step hdel h)
    (fun _ _ _ hi hn h => step_noneSkipped_iff hdel hi hn h) World.inv_start ?_ es
  intro s hs
  cases hs

/-! ## An indexed ledger is a saved one -/

/-- The invocations the archive holds for a ledger. -/
def archived (scValString : ScVal → Bytes) (archive : BitVec 32 → LedgerCloseMeta) (q : BitVec 32) : List Invocation :=
  ((extract scValString (archive q)).map LedgerResult.invocations).getD []

/-- No two ledgers of the archive hold a transaction with one hash and one close time. -/
def ClosesOnce (scValString : ScVal → Bytes) (archive : BitVec 32 → LedgerCloseMeta) : Prop :=
  ∀ q q' inv inv', inv ∈ archived scValString archive q → inv' ∈ archived scValString archive q' → inv.key = inv'.key → q = q'

/-- Every ledger that is reported as indexed has been fetched, extracted and saved; so, as each transaction closes in one
ledger, an indexed ledger without invocations really held none. -/
def IndexedIsSaved (scValString : ScVal → Bytes) (archive : BitVec 32 → LedgerCloseMeta) (w : World) : Prop :=
  ∀ q : BitVec 32, 1 ≤ q → (w.db.ledgerStats q).indexed = true →
    q ∈ w.saved ∧ (ClosesOnce scValString archive → (w.db.ledgerStats q).invocations = 0 → archived scValString archive q = [])

theorem archived_of_extract {q : BitVec 32} {result : LedgerResult} (h : extract scValString (archive q) = some result) :
    archived scValString archive q = result.invocations := by
  rw [archived, h]
  rfl

/-- An extracted invocation carries the sequence number of its ledger. -/
theorem ledger_of_extract {m : LedgerCloseMeta} {result : LedgerResult} (h : extract scValString m = some result) :
    ∀ inv ∈ result.invocations, inv.ledger = result.sequence := by
  have htx : ∀ header txs, ∀ inv ∈ (extractTransactions scValString header txs).invocations, inv.ledger = header.ledgerSeq := by
    intro header txs inv hinv
    obtain ⟨tx, -, htx⟩ := List.mem_filterMap.mp hinv
    obtain ⟨events, -, htx⟩ := Option.bind_eq_some_iff.mp htx
    obtain ⟨call, -, rfl⟩ := Option.map_eq_some_iff.mp htx
    rfl
  cases m with
  | v0 header txs =>
    cases h
    intro inv hinv
    cases hinv
  | v1 header txs =>
    cases h
    exact htx header txs
  | v2 header txs =>
    cases h
    exact htx header txs
  | other v => cases h

theorem ledger_of_archived (hdel : Delivers scValString archive) {q : BitVec 32} {inv : Invocation}
    (h : inv ∈ archived scValString archive q) : inv.ledger = q := by
  unfold archived at h
  cases hx : extract scValString (archive q) with
  | none =>
    rw [hx] at h
    cases h
  | some result =>
    rw [hx] at h
    rw [ledger_of_extract hx inv h, hdel q result hx]

/-- What the stored rows are: the invocations of the saved ledgers are among them, and each of them is one of the archive's. -/
structure RowsKept (scValString : ScVal → Bytes) (archive : BitVec 32 → LedgerCloseMeta) (w : World) : Prop where
  present : ∀ q ∈ w.saved, ∀ inv ∈ archived scValString archive q, inv.key ∈ w.db.transactions.map TxRow.key
  origin : ∀ r ∈ w.db.transactions, ∃ q, ∃ inv ∈ archived scValString archive q, r.key = inv.key ∧ r.ledger = q.toNat

/-- A save of the invocations of some ledgers keeps what the stored rows are. -/
theorem rowsKept_of_saved (ledgers : List (BitVec 32)) (hdel : Delivers scValString archive) {w w' : World}
    (hk : RowsKept scValString archive w) {st : Store} {call : Call} {seq : BitVec 32} {rows : List InvocationRow}
    (herr : (saveLedger acceptsTime st w.db call seq rows).error = none)
    (hdb : w'.db = (saveLedger acceptsTime st w.db call seq rows).db) (hsaved : w'.saved = ledgers ++ w.saved)
    (hrows : ∀ inv, inv ∈ rows ↔ ∃ q ∈ ledgers, inv ∈ archived scValString archive q) :
    RowsKept scValString archive w' := by
  obtain ⟨ps, d, written, hc⟩ := committed_of_ok herr
  constructor
  · intro q hq inv hinv
    rw [hdb, hc.mem_keys]
    rw [hsaved] at hq
    rcases List.mem_append.mp hq with hq | hq
    · exact Or.inr (List.mem_map_of_mem ((hrows inv).mpr ⟨q, hq, hinv⟩))
    · exact Or.inl (hk.present q hq inv hinv)
  · intro r hr
    rw [hdb] at hr
    rcases hc.mem_transactions hr with hr | ⟨p, -, hp, args, rfl⟩
    · exact hk.origin r hr
    · obtain ⟨q, -, hinv⟩ := (hrows p.row).mp hp
      refine ⟨q, p.row, hinv, rfl, ?_⟩
      rw [← ledger_of_archived hdel hinv]
      rfl

/-- Every step keeps what the stored rows are. -/
theorem RowsKept.step (hdel : Delivers scValString archive) {w w' : World} {e : Event}
    (hk : RowsKept scValString archive w) (h : step scValString acceptsTime archive w e = some w') :
    RowsKept scValString archive w' := by
  cases hsaves : e.saves with
  | false =>
    have hq := quietStep_of_step hsaves h
    constructor
    · rw [hq.saved, hq.transactions]
      exact hk.present
    · rw [hq.transactions]
      exact hk.origin
  | true =>
    cases e with
    | followSaves pid call =>
      obtain ⟨f, result, -, hresult, herr, rfl⟩ := step_follow_saves h
      refine rowsKept_of_saved [f.next] hdel hk herr rfl rfl fun inv => ?_
      simp [archived_of_extract hresult]
    | batchSaves pid call =>
      obtain ⟨b, results, -, hresults, herr, rfl⟩ := step_batch_saves h
      refine rowsKept_of_saved _ hdel hk herr rfl rfl fun inv => ?_
      rw [List.mem_flatMap]
      constructor
      · rintro ⟨result, hresult, hinv⟩
        obtain ⟨q, hq, hx⟩ := exists_of_forall₂_right hresults hresult
        exact ⟨q, hq, by rwa [archived_of_extract hx]⟩
      · rintro ⟨q, hq, hinv⟩
        obtain ⟨result, hresult, hx⟩ := exists_of_forall₂_left hresults hq
        exact ⟨result, hresult, by rwa [archived_of_extract hx] at hinv⟩
    | _ => cases hsaves

/-- A ledger is reported as indexed when the checkpoint has reached it. -/
theorem indexed_iff {w : World} {q : BitVec 32} : (w.db.ledgerStats q).indexed = true ↔ q.toNat ≤ w.checkpoint := by
  simp [Db.ledgerStats, World.checkpoint]

/-- A saved ledger for which no invocation is stored held none. -/
theorem archived_eq_nil {w : World} (hk : RowsKept scValString archive w) (honce : ClosesOnce scValString archive)
    {q : BitVec 32} (hq : q ∈ w.saved) (hzero : (w.db.ledgerStats q).invocations = 0) :
    archived scValString archive q = [] := by
  by_contra hne
  obtain ⟨inv, rest, hcons⟩ := List.exists_cons_of_ne_nil hne
  have hinv : inv ∈ archived scValString archive q := by rw [hcons]; exact List.mem_cons_self
  obtain ⟨r, hr, hkey⟩ := List.mem_map.mp (hk.present q hq inv hinv)
  obtain ⟨q', inv', hinv', hkey', hledger⟩ := hk.origin r hr
  have hqq : q = q' := honce q q' inv inv' hinv hinv' (hkey.symm.trans hkey')
  have hmem : r ∈ w.db.transactions.filter fun r => r.ledger = q.toNat :=
    List.mem_filter.mpr ⟨hr, by simp [hledger, hqq]⟩
  have hnil : w.db.transactions.filter (fun r => r.ledger = q.toNat) = [] := List.eq_nil_of_length_eq_zero hzero
  rw [hnil] at hmem
  cases hmem

theorem indexedIsSaved_iff {w : World} (hk : RowsKept scValString archive w) :
    IndexedIsSaved scValString archive w ↔ Covered 1 w := by
  constructor
  · intro h q hq hle
    exact (h q hq (indexed_iff.mpr hle)).1
  · intro h q hq hind
    have hsaved := h q hq (indexed_iff.mp hind)
    exact ⟨hsaved, fun honce hzero => archived_eq_nil hk honce hsaved hzero⟩

theorem RowsKept.start : RowsKept scValString archive World.start := by
  constructor
  · intro q hq
    cases hq
  · intro r hr
    cases hr

/-- In a run from an empty database, an indexed ledger is always a saved one exactly when every event that happens fills the
ledgers it would leave behind. -/
theorem indexed_is_saved_iff (hdel : Delivers scValString archive) (es : List Event) :
    (∀ w ∈ states (step scValString acceptsTime archive) World.start es, IndexedIsSaved scValString archive w) ↔
      EachStep (step scValString acceptsTime archive) (Fills 1) World.start es := by
  refine states_iff_eachStep (I := fun w => w.Inv ∧ RowsKept scValString archive w)
    (P := IndexedIsSaved scValString archive) (fun _ _ _ hi h => ⟨hi.1.step hdel h, hi.2.step hdel h⟩) ?_
    ⟨World.inv_start, RowsKept.start⟩ ?_ es
  · intro w e w' hi hp h
    rw [indexedIsSaved_iff (hi.2.step hdel h)]
    exact step_covered_iff hdel hi.1 ((indexedIsSaved_iff hi.2).mp hp) h
  · rw [indexedIsSaved_iff RowsKept.start]
    intro q hq hle
    have hone : (1 : BitVec 32).toNat = 1 := rfl
    rw [BitVec.le_def, hone] at hq
    have hzero : World.start.checkpoint = 0 := rfl
    omega

end

/-! ## Where they fail -/

/-- An archive in which no ledger holds a transaction. -/
def quietArchive (seq : BitVec 32) : LedgerCloseMeta := .v1 ⟨seq, 0⟩ []

theorem delivers_quietArchive : Delivers (fun _ => []) quietArchive := by
  intro seq result h
  cases h
  rfl

/-- A follower begins at ledger 100 and saves it; then a backfill of 200 to 210 saves its one batch. -/
def backfillAhead : List Event :=
  [.startFollow 0 100, .followSaves 0 Call.plain, .startBackfill 1 200 210 32, .batchSaves 1 Call.plain]

/-- A follower that has saved its first ledger meets the condition, as the run of it shows. -/
theorem follower_skips_none_quiet :
    (∀ w ∈ states (step (fun _ => []) (fun _ => true) quietArchive) World.start (backfillAhead.take 2), NoneSkipped w) ↔
      EachStep (step (fun _ => []) (fun _ => true) quietArchive) SkipsNone World.start (backfillAhead.take 2) :=
  follower_skips_none_iff delivers_quietArchive _

/-- The backfill moves the worker checkpoint to 210, and ledger 101 is left behind it unsaved. -/
theorem backfill_ahead_skips :
    ¬∀ w ∈ states (step (fun _ => []) (fun _ => true) quietArchive) World.start backfillAhead, NoneSkipped w := by
  intro h
  have hend : (run (step (fun _ => []) (fun _ => true) quietArchive) World.start backfillAhead).map
      (fun w => (w.firstStart, w.checkpoint, decide ((101 : BitVec 32) ∈ w.saved))) = some (some 100, 210, false) := by
    decide
  obtain ⟨w, hw, heq⟩ := Option.map_eq_some_iff.mp hend
  simp only [Prod.mk.injEq, decide_eq_false_iff_not] at heq
  obtain ⟨hfirst, hcheckpoint, hunsaved⟩ := heq
  have hcov := (h w (run_mem_states hw) 100 hfirst).1
  exact hunsaved (hcov 101 (by decide) (by rw [hcheckpoint]; decide))

theorem indexed_is_saved_quiet :
    (∀ w ∈ states (step (fun _ => []) (fun _ => true) quietArchive) World.start [.startFollow 0 1, .followSaves 0 Call.plain],
        IndexedIsSaved (fun _ => []) quietArchive w) ↔
      EachStep (step (fun _ => []) (fun _ => true) quietArchive) (Fills 1) World.start
        [.startFollow 0 1, .followSaves 0 Call.plain] :=
  indexed_is_saved_iff delivers_quietArchive _

/-- A follower that begins at ledger 100 and saves it makes ledger 1 indexed, which was never fetched. -/
theorem late_start_indexes_unsaved :
    ¬∀ w ∈ states (step (fun _ => []) (fun _ => true) quietArchive) World.start [.startFollow 0 100, .followSaves 0 Call.plain],
      IndexedIsSaved (fun _ => []) quietArchive w := by
  intro h
  have hend : (run (step (fun _ => []) (fun _ => true) quietArchive) World.start
      [.startFollow 0 100, .followSaves 0 Call.plain]).map
      (fun w => ((w.db.ledgerStats 1).indexed, decide ((1 : BitVec 32) ∈ w.saved))) = some (true, false) := by
    decide
  obtain ⟨w, hw, heq⟩ := Option.map_eq_some_iff.mp hend
  simp only [Prod.mk.injEq, decide_eq_false_iff_not] at heq
  exact heq.2 (h w (run_mem_states hw) 1 (by decide) heq.1).1

end Soroscan

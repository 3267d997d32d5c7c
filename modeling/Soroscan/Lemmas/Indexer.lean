import Soroscan.Indexer
import Soroscan.Lemmas.Save

/-!
# What the indexer's steps do

Only a successful round of a follower and a successful batch of a backfill change the worker checkpoint and the saved ledgers;
`steps_of_step` says what each event does, case by case. `Tracks` is what is known of every follower that is alive, and `Covered s`
says that no ledger from `s` up to the checkpoint is unsaved: `step_covered_iff` is the exact condition under which a step
keeps it.
-/

namespace Soroscan

section

variable {scValString : ScVal → Bytes} {acceptsTime : Time → Bool} {archive : BitVec 32 → LedgerCloseMeta}

/-- The archive returns the ledger it is asked for. -/
def Delivers (scValString : ScVal → Bytes) (archive : BitVec 32 → LedgerCloseMeta) : Prop :=
  ∀ seq result, extract scValString (archive seq) = some result → result.sequence = seq

/-! ## Checkpoints of ranges -/

theorem backfillName_ne_worker (start stop : BitVec 32) : backfillName start stop ≠ worker := by
  simp [backfillName, worker]

/-- The checkpoint of a range does not touch the worker's one. -/
@[simp] theorem checkpointLedger_setCheckpoint_backfill (db : Db) (start stop : BitVec 32) (n : Nat) :
    (db.setCheckpoint (backfillName start stop) n).checkpointLedger worker = db.checkpointLedger worker := by
  simp [Db.checkpointLedger, Db.setCheckpoint, Function.update_of_ne (backfillName_ne_worker start stop).symm]

/-! ## The steps -/

/-- What a round that failed leaves: the world as it was, or the world after a save that failed. -/
def FailedRound (acceptsTime : Time → Bool) (st : Store) (call : Call) (w w' : World) : Prop :=
  w' = w ∨ ∃ seq rows, (saveLedger acceptsTime st w.db call seq rows).error ≠ none ∧
    w' = { w with db := (saveLedger acceptsTime st w.db call seq rows).db }

/-- What an event does, case by case. -/
inductive Steps (scValString : ScVal → Bytes) (acceptsTime : Time → Bool) (archive : BitVec 32 → LedgerCloseMeta) (w : World) :
    Event → World → Prop
  | followRefused {pid : Nat} {startFlag : BitVec 32} (hfree : w.processes pid = none)
    (hf : startFollow w.db startFlag = none) : Steps scValString acceptsTime archive w (.startFollow pid startFlag) w
  | followStarts {pid : Nat} {startFlag : BitVec 32} {f : Follow} (hfree : w.processes pid = none)
    (hf : startFollow w.db startFlag = some f) :
    Steps scValString acceptsTime archive w (.startFollow pid startFlag)
      { w.put pid (some (.follow f)) with firstStart := w.firstStart.or (some f.began) }
  | followSaves {pid : Nat} {call : Call} {f : Follow} {result : LedgerResult} (hf : w.processes pid = some (.follow f))
    (hresult : extract scValString (archive f.next) = some result)
    (hok : (saveLedger acceptsTime f.store w.db call result.sequence result.invocations).error = none) :
    Steps scValString acceptsTime archive w (.followSaves pid call)
      { w.put pid (some (.follow { f with
          next := f.next + 1
          store := (saveLedger acceptsTime f.store w.db call result.sequence result.invocations).store })) with
        db := (saveLedger acceptsTime f.store w.db call result.sequence result.invocations).db
        saved := f.next :: w.saved }
  | followFails {pid : Nat} {fetched : Bool} {call : Call} {f : Follow} {w' : World}
    (hf : w.processes pid = some (.follow f)) (hround : FailedRound acceptsTime f.store call w w') :
    Steps scValString acceptsTime archive w (.followFails pid fetched call) w'
  | backfillStarts {pid : Nat} {start stop concurrency : BitVec 32} (hfree : w.processes pid = none)
    (hflags : backfillFlagsOk start stop concurrency = true) :
    Steps scValString acceptsTime archive w (.startBackfill pid start stop concurrency)
      (w.put pid ((startBackfill w.db start stop concurrency).map .backfill))
  | batchSaves {pid : Nat} {call : Call} {b : Backfill} {results : List LedgerResult}
    (hb : w.processes pid = some (.backfill b)) (hpending : b.pending = none) (hnext : b.next ≤ b.end)
    (hresults : List.Forall₂ (fun seq result => extract scValString (archive seq) = some result)
      (batchLedgers b.next b.batchEnd) results)
    (hok : (saveLedger acceptsTime b.store w.db call b.batchEnd (results.flatMap LedgerResult.invocations)).error = none) :
    Steps scValString acceptsTime archive w (.batchSaves pid call)
      { w.put pid (some (.backfill { b with
          pending := some b.batchEnd
          store :=
            (saveLedger acceptsTime b.store w.db call b.batchEnd (results.flatMap LedgerResult.invocations)).store })) with
        db := (saveLedger acceptsTime b.store w.db call b.batchEnd (results.flatMap LedgerResult.invocations)).db
        saved := batchLedgers b.next b.batchEnd ++ w.saved }
  | batchFails {pid : Nat} {fetched : Bool} {call : Call} {b : Backfill} {w' : World}
    (hb : w.processes pid = some (.backfill b)) (hround : FailedRound acceptsTime b.store call w w') :
    Steps scValString acceptsTime archive w (.batchFails pid fetched call) w'
  | batchCheckpoint {pid : Nat} {b : Backfill} {batchEnd : BitVec 32} (hb : w.processes pid = some (.backfill b))
    (hpending : b.pending = some batchEnd) :
    Steps scValString acceptsTime archive w (.batchCheckpoint pid)
      { w.put pid (some (.backfill { b with next := batchEnd + 1, pending := none })) with
        db := w.db.setCheckpoint (backfillName b.start b.end) batchEnd.toNat }
  | stops {pid : Nat} : Steps scValString acceptsTime archive w (.stop pid) (w.put pid none)

theorem failedRound_of_followFails {w w' : World} {fetched : Bool} {call : Call} {f : Follow}
    (h : followFails scValString acceptsTime archive w fetched call f = some w') :
    FailedRound acceptsTime f.store call w w' := by
  unfold followFails indexOne at h
  split_ifs at h
  · split at h
    · cases h
      exact Or.inl rfl
    · rename_i r hr
      obtain ⟨result, -, rfl⟩ := Option.map_eq_some_iff.mp hr
      split_ifs at h with he
      cases h
      exact Or.inr ⟨_, _, he, rfl⟩
  · cases h
    exact Or.inl rfl

theorem failedRound_of_batchFails {w w' : World} {fetched : Bool} {call : Call} {b : Backfill}
    (h : batchFails scValString acceptsTime archive w fetched call b = some w') :
    FailedRound acceptsTime b.store call w w' := by
  unfold batchFails indexBatch at h
  split_ifs at h
  · split at h
    · cases h
      exact Or.inl rfl
    · rename_i r hr
      obtain ⟨results, -, rfl⟩ := Option.map_eq_some_iff.mp hr
      split_ifs at h with he
      cases h
      exact Or.inr ⟨_, _, he, rfl⟩
  · cases h
    exact Or.inl rfl

/-- An event that happens is one of these cases. -/
theorem steps_of_step {w w' : World} {e : Event} (h : step scValString acceptsTime archive w e = some w') :
    Steps scValString acceptsTime archive w e w' := by
  cases e with
  | startFollow pid startFlag =>
    simp only [step] at h
    split_ifs at h with hfree
    split at h
    · rename_i hf
      cases h
      exact .followRefused hfree hf
    · rename_i f hf
      cases h
      exact .followStarts hfree hf
  | followSaves pid call =>
    simp only [step] at h
    split at h
    · rename_i f hf
      unfold followSaves indexOne at h
      obtain ⟨r, hr, h⟩ := Option.bind_eq_some_iff.mp h
      obtain ⟨result, hresult, rfl⟩ := Option.map_eq_some_iff.mp hr
      split_ifs at h with hok
      cases h
      exact .followSaves hf hresult hok
    · cases h
  | followFails pid fetched call =>
    simp only [step] at h
    split at h
    · rename_i f hf
      exact .followFails hf (failedRound_of_followFails h)
    · cases h
  | startBackfill pid start stop concurrency =>
    simp only [step] at h
    split_ifs at h with hok
    cases h
    exact .backfillStarts hok.1 hok.2
  | batchSaves pid call =>
    simp only [step] at h
    split at h
    · rename_i b hb
      unfold batchSaves indexBatch at h
      split_ifs at h with hready
      obtain ⟨r, hr, h⟩ := Option.bind_eq_some_iff.mp h
      obtain ⟨results, hresults, rfl⟩ := Option.map_eq_some_iff.mp hr
      split_ifs at h with hok
      cases h
      exact .batchSaves hb hready.1 hready.2 (forall₂_of_mapM_some hresults) hok
    · cases h
  | batchFails pid fetched call =>
    simp only [step] at h
    split at h
    · rename_i b hb
      exact .batchFails hb (failedRound_of_batchFails h)
    · cases h
  | batchCheckpoint pid =>
    simp only [step] at h
    split at h
    · rename_i b hb
      obtain ⟨batchEnd, hpending, rfl⟩ := Option.map_eq_some_iff.mp h
      exact .batchCheckpoint hb hpending
    · cases h
  | stop pid =>
    simp only [step] at h
    cases h
    exact .stops

/-- A successful round of a follower. -/
theorem step_follow_saves {w w' : World} {pid : Nat} {call : Call}
    (h : step scValString acceptsTime archive w (.followSaves pid call) = some w') :
    ∃ f result, w.processes pid = some (.follow f) ∧ extract scValString (archive f.next) = some result ∧
      (saveLedger acceptsTime f.store w.db call result.sequence result.invocations).error = none ∧
      w' = { w.put pid (some (.follow { f with
          next := f.next + 1
          store := (saveLedger acceptsTime f.store w.db call result.sequence result.invocations).store })) with
        db := (saveLedger acceptsTime f.store w.db call result.sequence result.invocations).db
        saved := f.next :: w.saved } := by
  cases steps_of_step h with
  | followSaves hf hresult hok => exact ⟨_, _, hf, hresult, hok, rfl⟩

/-- A successful batch of a backfill. -/
theorem step_batch_saves {w w' : World} {pid : Nat} {call : Call}
    (h : step scValString acceptsTime archive w (.batchSaves pid call) = some w') :
    ∃ b results, w.processes pid = some (.backfill b) ∧
      List.Forall₂ (fun seq result => extract scValString (archive seq) = some result) (batchLedgers b.next b.batchEnd)
        results ∧
      (saveLedger acceptsTime b.store w.db call b.batchEnd (results.flatMap LedgerResult.invocations)).error = none ∧
      w' = { w.put pid (some (.backfill { b with
          pending := some b.batchEnd
          store :=
            (saveLedger acceptsTime b.store w.db call b.batchEnd (results.flatMap LedgerResult.invocations)).store })) with
        db := (saveLedger acceptsTime b.store w.db call b.batchEnd (results.flatMap LedgerResult.invocations)).db
        saved := batchLedgers b.next b.batchEnd ++ w.saved } := by
  cases steps_of_step h with
  | batchSaves hb _ _ hresults hok => exact ⟨_, _, hb, hresults, hok, rfl⟩

/-- A process that is put in its place leaves every other process. -/
theorem put_processes_of_ne {w : World} {pid pid' : Nat} {p : Option Process} (h : pid' ≠ pid) :
    (w.put pid p).processes pid' = w.processes pid' := by
  simp [World.put, h]

@[simp] theorem put_processes_self (w : World) (pid : Nat) (p : Option Process) : (w.put pid p).processes pid = p := by
  simp [World.put]

/-! ## The events that save nothing -/

/-- An event that saves a ledger or a batch. -/
def Event.saves : Event → Bool
  | .followSaves _ _ => true
  | .batchSaves _ _ => true
  | _ => false

/-- What every other event leaves alone. -/
structure Quiet (w w' : World) : Prop where
  checkpoint : w'.checkpoint = w.checkpoint
  saved : w'.saved = w.saved
  transactions : w'.db.transactions = w.db.transactions

/-- A save that fails leaves the checkpoint and the rows. -/
theorem quiet_of_error {w : World} {st : Store} {call : Call} {seq : BitVec 32} {rows : List InvocationRow}
    (h : (saveLedger acceptsTime st w.db call seq rows).error ≠ none) :
    Quiet w { w with db := (saveLedger acceptsTime st w.db call seq rows).db } := by
  rcases saveLedger_cases acceptsTime st w.db call seq rows with hf | ⟨ps, d, written, hc⟩
  · exact ⟨by rw [World.checkpoint, Db.checkpointLedger, hf.checkpoints]; rfl, rfl, hf.transactions⟩
  · exact absurd hc.error h

theorem FailedRound.quiet {st : Store} {call : Call} {w w' : World} (h : FailedRound acceptsTime st call w w') :
    Quiet w w' := by
  rcases h with rfl | ⟨seq, rows, he, rfl⟩
  · exact ⟨rfl, rfl, rfl⟩
  · exact quiet_of_error he

theorem FailedRound.processes {st : Store} {call : Call} {w w' : World} (h : FailedRound acceptsTime st call w w') :
    w'.processes = w.processes := by
  rcases h with rfl | ⟨seq, rows, -, rfl⟩ <;> rfl

theorem FailedRound.firstStart {st : Store} {call : Call} {w w' : World} (h : FailedRound acceptsTime st call w w') :
    w'.firstStart = w.firstStart := by
  rcases h with rfl | ⟨seq, rows, -, rfl⟩ <;> rfl

/-- A world after a step that saves nothing. Every follower in it was there before, or has just begun. -/
structure QuietStep (w w' : World) : Prop extends Quiet w w' where
  followers : ∀ pid f, w'.processes pid = some (.follow f) →
    w.processes pid = some (.follow f) ∨ ∃ startFlag, startFollow w.db startFlag = some f

/-- Followers of a world in which one process was replaced by no follower. -/
theorem followers_put {w : World} {pid pid' : Nat} {p : Option Process} {f : Follow} (hp : ∀ f, p ≠ some (.follow f))
    (h : (w.put pid p).processes pid' = some (.follow f)) : w.processes pid' = some (.follow f) := by
  by_cases hpid : pid' = pid
  · subst hpid
    rw [put_processes_self] at h
    exact absurd h (hp f)
  · rwa [put_processes_of_ne hpid] at h

/-- Every event but a save leaves the checkpoint, the saved ledgers and the rows. -/
theorem quietStep_of_step {w w' : World} {e : Event} (he : e.saves = false)
    (h : step scValString acceptsTime archive w e = some w') : QuietStep w w' := by
  have failed : ∀ {st : Store} {call : Call} {v : World}, FailedRound acceptsTime st call w v → QuietStep w v :=
    fun hv => ⟨hv.quiet, fun pid f hf => Or.inl (by rw [← hv.processes]; exact hf)⟩
  cases steps_of_step h with
  | followSaves => cases he
  | batchSaves => cases he
  | followRefused => exact ⟨⟨rfl, rfl, rfl⟩, fun pid f hf => Or.inl hf⟩
  | @followStarts pid startFlag f _ hf =>
    refine ⟨⟨rfl, rfl, rfl⟩, fun pid' f' hf' => ?_⟩
    by_cases hpid : pid' = pid
    · subst hpid
      have : some (Process.follow f) = some (.follow f') := by rw [← hf', put_processes_self]
      cases this
      exact Or.inr ⟨startFlag, hf⟩
    · exact Or.inl (by rw [← put_processes_of_ne (w := w) (p := some (.follow f)) hpid]; exact hf')
  | followFails _ hround => exact failed hround
  | batchFails _ hround => exact failed hround
  | backfillStarts => exact ⟨⟨rfl, rfl, rfl⟩, fun pid' f hf => Or.inl (followers_put (by simp) hf)⟩
  | batchCheckpoint =>
    exact ⟨⟨checkpointLedger_setCheckpoint_backfill _ _ _ _, rfl, rfl⟩,
      fun pid' f hf => Or.inl (followers_put (by simp) hf)⟩
  | stops => exact ⟨⟨rfl, rfl, rfl⟩, fun pid' f hf => Or.inl (followers_put (by simp) hf)⟩

/-- Only the start of a follower sets where the first one began, and only once. -/
theorem step_firstStart {w w' : World} {e : Event} (h : step scValString acceptsTime archive w e = some w') :
    w'.firstStart = w.firstStart ∨ ∃ pid startFlag f, e = .startFollow pid startFlag ∧
      startFollow w.db startFlag = some f ∧ w.firstStart = none ∧ w'.firstStart = some f.began := by
  cases steps_of_step h with
  | @followStarts pid startFlag f _ hf =>
    cases hfirst : w.firstStart with
    | none => exact Or.inr ⟨pid, startFlag, f, rfl, hf, rfl, rfl⟩
    | some s => exact Or.inl rfl
  | followFails _ hround => exact Or.inl hround.firstStart
  | batchFails _ hround => exact Or.inl hround.firstStart
  | _ => exact Or.inl rfl

/-! ## Followers -/

/-- The last number of a ledger. -/
def lastLedger : Nat := 2 ^ 32 - 1

/-- What is known of a follower: it has saved every ledger from where it began, as long as the numbers have not run out, and
it began right after a checkpoint if a checkpoint gave it its first ledger. -/
structure Tracks (saved : List (BitVec 32)) (checkpoint : Nat) (f : Follow) : Prop where
  covers : checkpoint = lastLedger ∨ (f.began ≤ f.next ∧ ∀ q, f.began ≤ q → q < f.next → q ∈ saved)
  resumed : f.resumed = true → f.began.toNat ≤ checkpoint + 1

theorem Tracks.mono {saved saved' : List (BitVec 32)} {c c' : Nat} {f : Follow} (h : Tracks saved c f)
    (hs : saved ⊆ saved') (hc : c ≤ c') (hlast : c' ≤ lastLedger) : Tracks saved' c' f where
  covers := by
    rcases h.covers with hcov | ⟨hle, hcov⟩
    · exact Or.inl (by omega)
    · exact Or.inr ⟨hle, fun q hq hq' => hs (hcov q hq hq')⟩
  resumed hr := le_trans (h.resumed hr) (by omega)

theorem tracks_startFollow {db : Db} {startFlag : BitVec 32} {f : Follow} (h : startFollow db startFlag = some f)
    (saved : List (BitVec 32)) : Tracks saved (db.checkpointLedger worker) f := by
  have hcov : ∀ n : BitVec 32, n ≤ n ∧ ∀ q, n ≤ q → q < n → q ∈ saved := by
    intro n
    refine ⟨BitVec.le_refl n, fun q hq hq' => ?_⟩
    rw [BitVec.le_def] at hq
    rw [BitVec.lt_def] at hq'
    omega
  unfold startFollow at h
  split_ifs at h
  · cases h
    exact ⟨Or.inr (hcov _), fun hr => by cases hr⟩
  · cases h
    refine ⟨Or.inr (hcov _), fun _ => ?_⟩
    have hone : (1 : BitVec 32).toNat = 1 := rfl
    simp only [uint32, BitVec.toNat_add, BitVec.toNat_ofNat, hone]
    omega

/-- What every reachable world has: the checkpoint is a ledger number, and every follower is tracked. -/
structure World.Inv (w : World) : Prop where
  checkpoint_le : w.checkpoint ≤ lastLedger
  tracks : ∀ pid f, w.processes pid = some (.follow f) → Tracks w.saved w.checkpoint f

theorem World.inv_start : World.start.Inv := ⟨by simp [World.checkpoint, World.start, Db.checkpointLedger, Db.empty], by
  intro pid f hf
  cases hf⟩

theorem toNat_le_lastLedger (q : BitVec 32) : q.toNat ≤ lastLedger := by
  have := q.isLt
  unfold lastLedger
  omega

/-- The checkpoint after a save that succeeded. -/
theorem checkpoint_of_saved {w w' : World} {st : Store} {call : Call} {seq : BitVec 32} {rows : List InvocationRow}
    (h : (saveLedger acceptsTime st w.db call seq rows).error = none)
    (hdb : w'.db = (saveLedger acceptsTime st w.db call seq rows).db) :
    w'.checkpoint = max w.checkpoint seq.toNat := by
  rw [World.checkpoint, hdb, saveLedger_checkpoint, if_pos h, World.checkpoint]

/-- A follower that saved its ledger is still tracked. -/
theorem tracks_next {saved : List (BitVec 32)} {c c' : Nat} {f : Follow} {st : Store} (h : Tracks saved c f)
    (hc : c' = max c f.next.toNat) (hlast : c ≤ lastLedger) :
    Tracks (f.next :: saved) c' { f with next := f.next + 1, store := st } where
  covers := by
    by_cases hend : f.next.toNat = lastLedger
    · exact Or.inl (by omega)
    · rcases h.covers with hcov | ⟨hle, hcov⟩
      · have := toNat_le_lastLedger f.next
        exact Or.inl (by omega)
      · have hlt := f.next.isLt
        have hne : f.next.toNat ≠ 2 ^ 32 - 1 := hend
        have hsucc : (f.next + 1).toNat = f.next.toNat + 1 := by
          have hone : (1 : BitVec 32).toNat = 1 := rfl
          rw [BitVec.toNat_add, hone]
          omega
        refine Or.inr ⟨?_, fun q hq hq' => ?_⟩
        · show f.began ≤ f.next + 1
          rw [BitVec.le_def] at hle ⊢
          omega
        · rw [BitVec.lt_def, hsucc] at hq'
          by_cases heq : q = f.next
          · exact heq ▸ List.mem_cons_self
          · have hne : q.toNat ≠ f.next.toNat := fun h => heq (BitVec.eq_of_toNat_eq h)
            exact List.mem_cons_of_mem _ (hcov q hq (by rw [BitVec.lt_def]; omega))
  resumed hr := le_trans (h.resumed hr) (by omega)

/-- Every step keeps what is known of a world. -/
theorem World.Inv.step (hdel : Delivers scValString archive) {w w' : World} {e : Event} (hi : w.Inv)
    (h : step scValString acceptsTime archive w e = some w') : w'.Inv := by
  cases hsaves : e.saves with
  | false =>
    have hq := quietStep_of_step hsaves h
    refine ⟨hq.checkpoint ▸ hi.checkpoint_le, fun pid f hf => ?_⟩
    rw [hq.checkpoint, hq.saved]
    rcases hq.followers pid f hf with hf | ⟨startFlag, hf⟩
    · exact hi.tracks pid f hf
    · exact tracks_startFollow hf _
  | true =>
    cases e with
    | followSaves pid call =>
      obtain ⟨f, result, hf, hresult, herr, hw'⟩ := step_follow_saves h
      have hc : w'.checkpoint = max w.checkpoint f.next.toNat := by
        rw [checkpoint_of_saved herr (by rw [hw']), hdel _ _ hresult]
      have hlast : w'.checkpoint ≤ lastLedger := by
        rw [hc]
        exact max_le hi.checkpoint_le (toNat_le_lastLedger _)
      have hsaved : w'.saved = f.next :: w.saved := by rw [hw']
      refine ⟨hlast, fun pid' f' hf' => ?_⟩
      rw [hsaved]
      by_cases hpid : pid' = pid
      · subst hpid
        have hproc : w'.processes pid' = some (.follow { f with
            next := f.next + 1
            store := (saveLedger acceptsTime f.store w.db call result.sequence result.invocations).store }) := by
          rw [hw']
          exact put_processes_self w pid' _
        rw [hproc] at hf'
        cases hf'
        exact tracks_next (hi.tracks pid' f hf) hc hi.checkpoint_le
      · have hproc : w'.processes pid' = w.processes pid' := by
          rw [hw']
          exact put_processes_of_ne hpid
        rw [hproc] at hf'
        exact (hi.tracks pid' f' hf').mono (List.subset_cons_self _ _) (by omega) hlast
    | batchSaves pid call =>
      obtain ⟨b, results, hb, -, herr, hw'⟩ := step_batch_saves h
      have hc : w'.checkpoint = max w.checkpoint b.batchEnd.toNat := checkpoint_of_saved herr (by rw [hw'])
      have hlast : w'.checkpoint ≤ lastLedger := by
        rw [hc]
        exact max_le hi.checkpoint_le (toNat_le_lastLedger _)
      have hsaved : w'.saved = batchLedgers b.next b.batchEnd ++ w.saved := by rw [hw']
      refine ⟨hlast, fun pid' f' hf' => ?_⟩
      rw [hw'] at hf'
      have hf' := followers_put (by simp) hf'
      rw [hsaved]
      exact (hi.tracks pid' f' hf').mono (List.subset_append_right _ _) (by omega) hlast
    | _ => cases hsaves

/-! ## Covered ledgers -/

/-- Every ledger from `s` up to the worker checkpoint has been saved. -/
def Covered (s : BitVec 32) (w : World) : Prop := ∀ q, s ≤ q → q.toNat ≤ w.checkpoint → q ∈ w.saved

/-- The condition on a step under which no ledger from `s` on is left behind the checkpoint. A follower that a checkpoint gave
its first ledger meets it. For a follower that began at its flag, and for a batch, either the save does not move the
checkpoint, or every ledger that it would leave behind has been saved. -/
def Fills (s : BitVec 32) (w : World) : Event → Prop
  | .followSaves pid _ => ∀ f, w.processes pid = some (.follow f) →
      f.resumed = true ∨ f.next.toNat ≤ w.checkpoint ∨
        ∀ q, s ≤ q → q < f.began → w.checkpoint < q.toNat → q ∈ w.saved
  | .batchSaves pid _ => ∀ b, w.processes pid = some (.backfill b) →
      b.batchEnd.toNat ≤ w.checkpoint ∨
        ∀ q, s ≤ q → q ≤ b.batchEnd → w.checkpoint < q.toNat → q ∈ batchLedgers b.next b.batchEnd ∨ q ∈ w.saved
  | _ => True

/-- A step keeps the ledgers covered exactly when it fills them. -/
theorem step_covered_iff (hdel : Delivers scValString archive) {s : BitVec 32} {w w' : World} {e : Event} (hi : w.Inv)
    (hcov : Covered s w) (h : step scValString acceptsTime archive w e = some w') : Covered s w' ↔ Fills s w e := by
  cases hsaves : e.saves with
  | false =>
    have hq := quietStep_of_step hsaves h
    have hcov' : Covered s w' := by
      intro q hs hle
      rw [hq.saved]
      exact hcov q hs (hq.checkpoint ▸ hle)
    have hfills : Fills s w e := by cases e <;> trivial
    exact iff_of_true hcov' hfills
  | true =>
    cases e with
    | followSaves pid call =>
      obtain ⟨f, result, hf, hresult, herr, hw'⟩ := step_follow_saves h
      have hc : w'.checkpoint = max w.checkpoint f.next.toNat := by
        rw [checkpoint_of_saved herr (by rw [hw']), hdel _ _ hresult]
      have hsaved : w'.saved = f.next :: w.saved := by rw [hw']
      have ht := hi.tracks pid f hf
      have hnext := toNat_le_lastLedger f.next
      constructor
      · intro hcov' f' hf'
        rw [hf] at hf'
        cases hf'
        by_cases hle : f.next.toNat ≤ w.checkpoint
        · exact Or.inr (Or.inl hle)
        · refine Or.inr (Or.inr fun q hs hq _ => ?_)
          rcases ht.covers with hlast | ⟨hbegan, -⟩
          · exact absurd hnext (by omega)
          · rw [BitVec.lt_def] at hq
            rw [BitVec.le_def] at hbegan
            have hmem := hcov' q hs (by rw [hc]; omega)
            rw [hsaved] at hmem
            rcases List.mem_cons.mp hmem with rfl | hmem
            · exact absurd hq (by omega)
            · exact hmem
      · intro hfills q hs hle
        rw [hsaved]
        by_cases hqc : q.toNat ≤ w.checkpoint
        · exact List.mem_cons_of_mem _ (hcov q hs hqc)
        by_cases hqn : q = f.next
        · exact hqn ▸ List.mem_cons_self
        refine List.mem_cons_of_mem _ ?_
        have hne : q.toNat ≠ f.next.toNat := fun h => hqn (BitVec.eq_of_toNat_eq h)
        rcases ht.covers with hlast | ⟨-, hsince⟩
        · have := toNat_le_lastLedger q
          exact absurd hlast (by omega)
        by_cases hqb : f.began ≤ q
        · exact hsince q hqb (by rw [BitVec.lt_def]; omega)
        rw [BitVec.not_le] at hqb
        have hqb' := hqb
        rw [BitVec.lt_def] at hqb'
        rcases hfills f hf with hres | hle' | hall
        · have := ht.resumed hres
          omega
        · omega
        · exact hall q hs hqb (by omega)
    | batchSaves pid call =>
      obtain ⟨b, results, hb, -, herr, hw'⟩ := step_batch_saves h
      have hc : w'.checkpoint = max w.checkpoint b.batchEnd.toNat := checkpoint_of_saved herr (by rw [hw'])
      have hsaved : w'.saved = batchLedgers b.next b.batchEnd ++ w.saved := by rw [hw']
      constructor
      · intro hcov' b' hb'
        rw [hb] at hb'
        cases hb'
        refine Or.inr fun q hs hq _ => ?_
        rw [BitVec.le_def] at hq
        have hmem := hcov' q hs (by rw [hc]; omega)
        rw [hsaved] at hmem
        exact List.mem_append.mp hmem
      · intro hfills q hs hle
        rw [hsaved, List.mem_append]
        by_cases hqc : q.toNat ≤ w.checkpoint
        · exact Or.inr (hcov q hs hqc)
        · rcases hfills b hb with hle' | hall
          · exact absurd hle (by omega)
          · exact hall q hs (by rw [BitVec.le_def]; omega) (by omega)
    | _ => cases hsaves

end

end Soroscan

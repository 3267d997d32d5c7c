import Soroscan.Endpoints
import Soroscan.Theorems.WireWalk

/-!
# What a client is told of a ledger

The numbers of a ledger go through the same texts as the history of a contract. While the indexer goes on, a client is told what the
archive holds of a ledger that was saved, and zeros of any other.
-/

namespace Soroscan

namespace Wire

/-- The numbers of a ledger, as a client reads them. -/
def shownStats (stats : LedgerStats) : LedgerSorobanStats :=
  ⟨JsNumber.of stats.invocations, JsNumber.of stats.contracts, JsNumber.of stats.functions, stats.indexed⟩

/-- The numbers of a ledger as they are. -/
def exactStats (stats : LedgerStats) : LedgerSorobanStats :=
  ⟨.finite stats.invocations, .finite stats.contracts, .finite stats.functions, stats.indexed⟩

/-- Of fewer invocations than double precision can count, the numbers are read as they are. -/
theorem shownStats_of {invs : List Invocation} (h : invs.length < 2 ^ 53) (indexed : Bool) :
    shownStats (LedgerStats.of invs indexed) = exactStats (LedgerStats.of invs indexed) := by
  have hcount : ∀ {κ : Type} [DecidableEq κ] (f : Invocation → κ), (invs.map f).dedup.length < 2 ^ 53 := by
    intro κ _ f
    refine lt_of_le_of_lt (List.dedup_sublist _).length_le ?_
    rwa [List.length_map]
  rw [shownStats, exactStats]
  simp only [LedgerStats.of, JsNumber.of_natCast h, JsNumber.of_natCast (hcount _)]

/-- The refusal of a request is read with its message and its status. -/
theorem readLedgerSoroban_refusal {e : ApiError} (hstatus : Failover.isOkStatus e.status = false)
    (hretry : Failover.isRetriableStatus e.status = false) :
    (writeError e).attempt.accepted.map readLedgerSoroban = some (.error (.upstream e.message.toList (some e.status))) := by
  have hstands : Json.Stands (Json.objectText [(key "error", Json.quote e.message.toList)])
      (.obj (Json.objectOf [(key "error", .str e.message.toList)])) :=
    Json.stands_objectText (.cons ⟨rfl, Json.stands_quote _⟩ .nil)
  have hmessage : stringField "error" (Json.obj (Json.objectOf [(key "error", .str e.message.toList)])).toJs =
      some e.message.toList := stringField_of_mem (by simp) List.mem_cons_self
  rw [writeError, accepted_of_stands hstands hretry, Option.map_some, readLedgerSoroban, hstatus]
  simp only [refusal, hmessage]
  rfl

/-- The numbers of a ledger are read as they are written, each rounded. -/
theorem fetchLedgerSoroban_ok {sequence : Nat} (hpos : sequence ≠ 0) (hlt : sequence < 2 ^ 32)
    {ledgerStats : BitVec 32 → Option LedgerStats} {stats : LedgerStats} (hstats : ledgerStats (uint32 sequence) = some stats) :
    fetchLedgerSoroban sequence ledgerStats = some (.ok (shownStats stats)) := by
  let vs : List (Text × Json) :=
    [(key "invocations", .num (decimal stats.invocations)), (key "contracts", .num (decimal stats.contracts)),
     (key "functions", .num (decimal stats.functions)), (key "indexed", .bool stats.indexed)]
  have hnodup : (vs.map (·.1)).Nodup := by
    show [key "invocations", key "contracts", key "functions", key "indexed"].Nodup
    decide
  have hnumber : ∀ n : Nat, Json.Stands (decimal n) (.num (decimal n)) := fun n =>
    Json.stands_num (Json.readNumber_intDecimal (.ofNat n))
  have hstands : Json.Stands (Json.objectText [(key "invocations", decimal stats.invocations),
      (key "contracts", decimal stats.contracts), (key "functions", decimal stats.functions),
      (key "indexed", Json.marshal (.bool stats.indexed))]) (.obj (Json.objectOf vs)) :=
    Json.stands_objectText (.cons ⟨rfl, hnumber _⟩ (.cons ⟨rfl, hnumber _⟩ (.cons ⟨rfl, hnumber _⟩
      (.cons ⟨rfl, Json.stands_bool _⟩ .nil))))
  have hinvocations : numberField "invocations" (Json.obj (Json.objectOf vs)).toJs = some (JsNumber.of stats.invocations) :=
    numberField_of_mem hnodup (by simp [vs])
  have hcontracts : numberField "contracts" (Json.obj (Json.objectOf vs)).toJs = some (JsNumber.of stats.contracts) :=
    numberField_of_mem hnodup (by simp [vs])
  have hfunctions : numberField "functions" (Json.obj (Json.objectOf vs)).toJs = some (JsNumber.of stats.functions) :=
    numberField_of_mem hnodup (by simp [vs])
  have hindexed : boolField "indexed" (Json.obj (Json.objectOf vs)).toJs = some stats.indexed := by
    rw [boolField, JsValue.field_toJs, Json.field_objectOf hnodup (v := .bool stats.indexed) (by simp [vs])]
    rfl
  have hrange : ¬(sequence = 0 ∨ 2 ^ 32 ≤ sequence) := by omega
  rw [fetchLedgerSoroban, ledgerSoroban, readDecimal_decimal]
  simp only [if_neg hrange, hstats]
  rw [writeJSON, accepted_of_stands hstands (by decide), Option.map_some, readLedgerSoroban]
  simp only [hinvocations, hcontracts, hfunctions, hindexed]
  rfl

section

variable {scValString : ScVal → Bytes} {acceptsTime : Time → Bool} {archive : BitVec 32 → LedgerCloseMeta}

variable (scValString archive) in
/-- What there is to tell of a ledger: the numbers of the archive if it was saved when its rows are counted, and zeros otherwise. It
is indexed if the checkpoint was at it when that was read. -/
def statsToTell (checkpoint : Nat) (saved : List (BitVec 32)) (sequence : Nat) : LedgerStats :=
  LedgerStats.of (if saved.contains (uint32 sequence) then archived scValString archive (uint32 sequence) else [])
    (decide (sequence ≤ checkpoint))

/-- A client that asks for a ledger while followers and backfills go on, so that the checkpoint is read in one state and the rows are
counted in a later one: it is told the numbers of the archive if the ledger was saved by then, and zeros otherwise; and it is refused
only a sequence that no ledger has. The numbers are exact, unless a ledger has more invocations than double precision can count. -/
theorem ledger_told (hdel : Delivers scValString archive) (hone : OneEach scValString archive) {es es' : List Event} {w w' : World}
    (hrun : run (step scValString acceptsTime archive) World.start es = some w)
    (hrun' : run (step scValString acceptsTime archive) w es' = some w') (sequence : Nat) :
    fetchLedgerSoroban sequence (fun q => some (ledgerStats w.db w'.db q)) = some
        (if sequence = 0 ∨ 2 ^ 32 ≤ sequence then .error (.upstream "invalid ledger sequence".toList (some 400))
        else .ok (shownStats (statsToTell scValString archive w.checkpoint w'.saved sequence))) ∧
      ((archived scValString archive (uint32 sequence)).length < 2 ^ 53 →
        shownStats (statsToTell scValString archive w.checkpoint w'.saved sequence) =
          exactStats (statsToTell scValString archive w.checkpoint w'.saved sequence)) := by
  constructor
  · by_cases hrange : sequence = 0 ∨ 2 ^ 32 ≤ sequence
    · rw [if_pos hrange, fetchLedgerSoroban, ledgerSoroban, readDecimal_decimal]
      simp only [if_pos hrange]
      exact readLedgerSoroban_refusal (by decide) (by decide)
    · rw [if_neg hrange]
      have hreached := World.reached_of_run hdel World.reached_start hrun
      have htoNat : (uint32 sequence).toNat = sequence := toNat_uint32 (by omega)
      have hstats : ledgerStats w.db w'.db (uint32 sequence) = statsToTell scValString archive w.checkpoint w'.saved sequence := by
        rw [Soroscan.ledgerStats, (World.reached_of_run hdel hreached hrun').ledgerStats hdel hone (uint32 sequence), htoNat,
          statsToTell]
        simp only [List.contains_iff_mem]
        rfl
      exact fetchLedgerSoroban_ok (by omega) (by omega) (congrArg some hstats)
  · intro hfew
    refine shownStats_of ?_ _
    split_ifs
    · exact hfew
    · decide

end

/-- A sequence that no ledger has, three ledgers that were saved after the checkpoint was read, and one that was not. -/
theorem ledger_told_calls :
    ∃ w, run (step (fun _ => []) (fun _ => true) callArchive) World.start callsSaved = some w ∧
      ∀ sequence ∈ [0, 50457423, 50457424, 50457425, 50457426],
        fetchLedgerSoroban sequence (fun q => some (ledgerStats World.start.db w.db q)) = some
            (if sequence = 0 ∨ 2 ^ 32 ≤ sequence then .error (.upstream "invalid ledger sequence".toList (some 400))
            else .ok (shownStats (statsToTell (fun _ => []) callArchive World.start.checkpoint w.saved sequence))) ∧
          ((archived (fun _ => []) callArchive (uint32 sequence)).length < 2 ^ 53 →
            shownStats (statsToTell (fun _ => []) callArchive World.start.checkpoint w.saved sequence) =
              exactStats (statsToTell (fun _ => []) callArchive World.start.checkpoint w.saved sequence)) := by
  obtain ⟨w, hw, -⟩ := exists_callsSaved
  exact ⟨w, hw, fun sequence _ => ledger_told delivers_callArchive oneEach_callArchive (run_nil _ _) hw sequence⟩

end Wire

end Soroscan

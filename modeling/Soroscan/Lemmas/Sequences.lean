import Soroscan.Lemmas.Save

/-!
# The sequences behind the dictionary ids

How many values of the two `smallserial` sequences a call takes, and when a call fails because none is left. A value is taken
for every key that is missing from the caches of the calling process, whether the dictionary has it or not, and whether the
call is committed or not.
-/

namespace Soroscan

/-! ## What a call proposes -/

/-- The contract ids a call gets to propose. -/
def contractProposals (st : Store) (call : Call) (rows : List InvocationRow) : List Bytes32 :=
  match rows.mapM prepareRow with
  | .error _ => []
  | .ok ps =>
    if (call.breaks .start).isSome then []
    else proposedKeys call .contracts ((missingContracts st call ps).map (·.2))

/-- The function names a call gets to propose, when it has the ids of its contracts. -/
def functionProposals (st : Store) (call : Call) (rows : List InvocationRow) : List Bytes :=
  match rows.mapM prepareRow with
  | .error _ => []
  | .ok ps =>
    if (call.breaks .start).isSome || (call.breaks .contracts).isSome then []
    else if (missingFunctions st call ps).all acceptsText then proposedKeys call .functions (missingFunctions st call ps)
    else []

/-- Both sequences have a value left for every row the call proposes. -/
def Enough (st : Store) (db : Db) (call : Call) (rows : List InvocationRow) : Prop :=
  db.dicts.contracts.last + (contractProposals st call rows).length ≤ smallserialMax ∧
    db.dicts.functions.last + (functionProposals st call rows).length ≤ smallserialMax

/-- The sequences have not gone past their last value. -/
structure WithinLimit (db : Db) : Prop where
  contracts : db.dicts.contracts.last ≤ smallserialMax
  functions : db.dicts.functions.last ≤ smallserialMax

/-- A call failed for want of an id for a contract or a function. -/
def OutOfIds (r : Saved) : Prop := r.error = some (.noId .contracts) ∨ r.error = some (.noId .functions)

instance (r : Saved) : Decidable (OutOfIds r) := inferInstanceAs (Decidable (_ ∨ _))

/-! ## One statement -/

section Statement

variable {κ : Type} [DecidableEq κ]

/-- A statement runs out of ids exactly when fewer values are left than it has rows to propose. -/
theorem proposeKeys_noId_iff (call : Call) (stage : Stage) {limit : Nat} {d : Dict κ} (keys : List κ)
    (hd : d.last ≤ limit) : (proposeKeys call stage limit d keys).2 = some (.noId stage) ↔
      limit < d.last + (proposedKeys call stage keys).length := by
  have hok := Dict.insertAll_ok_iff limit d (proposedKeys call stage keys) hd
  unfold proposeKeys
  split
  · rename_i d' heq
    rw [heq] at hok
    exact iff_of_true rfl (not_le.mp fun hle => Bool.false_ne_true (hok.mpr hle))
  · rename_i d' heq
    rw [heq] at hok
    refine iff_of_false ?_ (not_lt.mpr (hok.mp rfl))
    simp only
    split_ifs <;> simp

/-- The values a statement takes from its sequence. -/
theorem proposeKeys_last (call : Call) (stage : Stage) {limit : Nat} {d : Dict κ} (keys : List κ) (hd : d.last ≤ limit) :
    (proposeKeys call stage limit d keys).1.last = min (d.last + (proposedKeys call stage keys).length) limit := by
  have hlast := Dict.insertAll_last limit d (proposedKeys call stage keys) hd
  unfold proposeKeys
  split <;>
  · rename_i heq
    rw [heq] at hlast
    exact hlast

/-- The errors of a statement name its stage. -/
theorem proposeKeys_error {call : Call} {stage : Stage} {limit : Nat} {d : Dict κ} {keys : List κ} {e : SaveError}
    (h : (proposeKeys call stage limit d keys).2 = some e) : e = .noId stage ∨ e = .database stage := by
  unfold proposeKeys at h
  split at h
  · cases h
    exact Or.inl rfl
  · simp only at h
    split_ifs at h
    cases h
    exact Or.inr rfl

end Statement

/-! ## One call -/

section Call

variable {acceptsTime : Time → Bool}

/-- The rows of a batch that is rejected or broken do not make a call run out of ids. -/
theorem commitBatch_not_outOfIds (st : Store) (db : Db) (call : Call) (ledgerSeq : BitVec 32) (d : Dicts)
    (ps : List PreparedRow) : ¬OutOfIds (commitBatch acceptsTime st db call ledgerSeq d ps) := by
  unfold commitBatch OutOfIds
  split
  · simp [rolledBack]
  · split_ifs <;> simp [rolledBack]

/-- The sequences after a batch: what the resolve statements left. -/
theorem commitBatch_last (acceptsTime : Time → Bool) (st : Store) (db : Db) (call : Call) (ledgerSeq : BitVec 32) (d : Dicts)
    (ps : List PreparedRow)
    (hc : db.dicts.contracts.last ≤ d.contracts.last) (hf : db.dicts.functions.last ≤ d.functions.last) :
    (commitBatch acceptsTime st db call ledgerSeq d ps).db.dicts.contracts.last = d.contracts.last ∧
      (commitBatch acceptsTime st db call ledgerSeq d ps).db.dicts.functions.last = d.functions.last := by
  unfold commitBatch
  split
  · exact ⟨max_eq_right hc, max_eq_right hf⟩
  · split_ifs
    · exact ⟨max_eq_right hc, max_eq_right hf⟩
    · exact ⟨max_eq_right hc, max_eq_right hf⟩
    · exact ⟨rfl, rfl⟩

/-- What the resolve statements leave: the sequences have moved by what they were to propose, as far as they go, and they fail
for want of an id exactly when that is past the limit. -/
structure Taken (st : Store) (call : Call) (d : Dicts) (ps : List PreparedRow) (cs : List Bytes32) (fs : List Bytes)
    (r : Dicts × Option SaveError) : Prop where
  contracts : r.1.contracts.last = min (d.contracts.last + cs.length) smallserialMax
  functions : d.contracts.last + cs.length ≤ smallserialMax →
    r.1.functions.last = min (d.functions.last + fs.length) smallserialMax
  functions_le : d.functions.last ≤ r.1.functions.last ∧ r.1.functions.last ≤ smallserialMax
  outOfIds : (r.2 = some (.noId .contracts) ∨ r.2 = some (.noId .functions)) ↔
    ¬(d.contracts.last + cs.length ≤ smallserialMax ∧ d.functions.last + fs.length ≤ smallserialMax)

/-- A statement that failed although enough values were left was broken by the database. -/
theorem breaks_of_fits {κ : Type} [DecidableEq κ] (call : Call) (stage : Stage) {limit : Nat} {d : Dict κ} (keys : List κ)
    {e : SaveError} (hd : d.last ≤ limit) (he : (proposeKeys call stage limit d keys).2 = some e)
    (hle : d.last + (proposedKeys call stage keys).length ≤ limit) : (call.breaks stage).isSome = true := by
  have hok := (Dict.insertAll_ok_iff limit d _ hd).mpr hle
  by_contra hb
  unfold proposeKeys at he
  rcases hi : Dict.insertAll limit d (proposedKeys call stage keys) with ⟨d', b⟩
  rw [hi] at hok he
  cases hok
  simp [hb] at he

/-- The contracts statement failed: the functions are not proposed. -/
theorem taken_of_contracts_failed {st : Store} {call : Call} {d : Dicts} {ps : List PreparedRow} {cs : List Bytes32}
    {contracts : Dict Bytes32} {e : SaveError} (hc : d.contracts.last ≤ smallserialMax)
    (hf : d.functions.last ≤ smallserialMax)
    (h : proposeKeys call .contracts smallserialMax d.contracts cs = (contracts, some e)) (fs : List Bytes) :
    Taken st call d ps (proposedKeys call .contracts cs) (if (call.breaks .contracts).isSome then [] else fs)
      ({ d with contracts }, some e) := by
  have hnoId := proposeKeys_noId_iff call .contracts cs hc
  have hlast := proposeKeys_last call .contracts cs hc
  have hbroken := breaks_of_fits call .contracts cs hc (by rw [h])
  rw [h] at hnoId hlast
  have hidle : d.contracts.last + (proposedKeys call .contracts cs).length ≤ smallserialMax →
      d.functions.last + (if (call.breaks .contracts).isSome then [] else fs).length = d.functions.last := by
    intro hle
    rw [if_pos (hbroken hle), List.length_nil, Nat.add_zero]
  refine ⟨hlast, fun hle => ?_, ⟨le_refl _, hf⟩, ?_⟩
  · rw [hidle hle, min_eq_left hf]
  · rcases proposeKeys_error (by rw [h]) with rfl | rfl
    · exact iff_of_true (Or.inl rfl) fun hen => absurd hen.1 (not_le.mpr (hnoId.mp rfl))
    · have hle := not_lt.mp fun hlt => by simpa using hnoId.mpr hlt
      exact iff_of_false (by simp) (not_not.mpr ⟨hle, by rw [hidle hle]; exact hf⟩)

/-- The contracts statement went through, and the functions statement took its values. -/
theorem taken_of_functions {st : Store} {call : Call} {d : Dicts} {ps : List PreparedRow} {cs : List Bytes32}
    {fs : List Bytes} {contracts : Dict Bytes32} {functions : Dict Bytes} {ef e : Option SaveError}
    (hc : d.contracts.last ≤ smallserialMax) (hf : d.functions.last ≤ smallserialMax)
    (h : proposeKeys call .contracts smallserialMax d.contracts cs = (contracts, none))
    (h' : proposeKeys call .functions smallserialMax d.functions fs = (functions, ef))
    (he : e = some (.noId .contracts) ∨ e = some (.noId .functions) ↔ ef = some (.noId .functions))
    (argAddresses : Dict Text) :
    Taken st call d ps (proposedKeys call .contracts cs) (proposedKeys call .functions fs)
      ({ contracts, functions, argAddresses }, e) := by
  have hnoId := proposeKeys_noId_iff call .contracts cs hc
  have hlast := proposeKeys_last call .contracts cs hc
  have hnoId' := proposeKeys_noId_iff call .functions fs hf
  have hlast' := proposeKeys_last call .functions fs hf
  rw [h] at hnoId hlast
  rw [h'] at hnoId' hlast'
  have hle := not_lt.mp fun hlt => by simpa using hnoId.mpr hlt
  refine ⟨hlast, fun _ => hlast', ?_, ?_⟩
  · rw [hlast']
    exact ⟨le_min (Nat.le_add_right _ _) hf, min_le_right _ _⟩
  · rw [he, hnoId']
    exact ⟨fun hlt hen => absurd hen.2 (not_le.mpr hlt), fun hen => not_le.mp fun hle' => hen ⟨hle, hle'⟩⟩

theorem taken_resolveAll (st : Store) (call : Call) {d : Dicts} (ps : List PreparedRow)
    (hc : d.contracts.last ≤ smallserialMax) (hf : d.functions.last ≤ smallserialMax) :
    Taken st call d ps (proposedKeys call .contracts ((missingContracts st call ps).map (·.2)))
      (if (call.breaks .contracts).isSome then []
        else if (missingFunctions st call ps).all acceptsText then
          proposedKeys call .functions (missingFunctions st call ps)
        else []) (resolveAll st call d ps) := by
  rcases h : proposeKeys call .contracts smallserialMax d.contracts ((missingContracts st call ps).map (·.2)) with
    ⟨contracts, _ | e⟩
  · have hbreaks : ¬(call.breaks .contracts).isSome = true := by simp [(proposeKeys_none h).1]
    rw [if_neg hbreaks]
    by_cases hnames : (missingFunctions st call ps).all acceptsText = true
    · rw [if_pos hnames]
      rcases h' : proposeKeys call .functions smallserialMax d.functions (missingFunctions st call ps) with
        ⟨functions, _ | e⟩
      · rcases h'' : proposeKeys call .addresses serialMax d.argAddresses (missingAddresses st call ps) with
          ⟨argAddresses, e⟩
        have hr : resolveAll st call d ps = ({ contracts, functions, argAddresses }, e) := by
          unfold resolveAll
          rw [h]
          simp only [if_pos hnames, h', h'']
        rw [hr]
        refine taken_of_functions hc hf h h' (iff_of_false ?_ (by simp)) argAddresses
        rintro (he | he) <;>
        · have herr := proposeKeys_error (by rw [h'']; exact he)
          simp at herr
      · have hr : resolveAll st call d ps = ({ d with contracts, functions }, some e) := by
          unfold resolveAll
          rw [h]
          simp only [if_pos hnames, h']
        rw [hr]
        refine taken_of_functions hc hf h h' ⟨fun he => ?_, Or.inr⟩ d.argAddresses
        rcases proposeKeys_error (by rw [h']) with rfl | rfl
        · rfl
        · simp at he
    · have hr : resolveAll st call d ps = ({ d with contracts }, some (.rejected .functions)) := by
        unfold resolveAll
        rw [h]
        simp only [if_neg hnames]
      have hnoId := proposeKeys_noId_iff call .contracts ((missingContracts st call ps).map (·.2)) hc
      have hlast := proposeKeys_last call .contracts ((missingContracts st call ps).map (·.2)) hc
      rw [h] at hnoId hlast
      have hle := not_lt.mp fun hlt => by simpa using hnoId.mpr hlt
      rw [hr, if_neg hnames]
      refine ⟨hlast, fun _ => ?_, ⟨le_refl _, hf⟩, iff_of_false (by simp) (not_not.mpr ⟨hle, ?_⟩)⟩
      · rw [List.length_nil, Nat.add_zero, min_eq_left hf]
      · rw [List.length_nil, Nat.add_zero]
        exact hf
  · have hr : resolveAll st call d ps = ({ d with contracts }, some e) := by
      unfold resolveAll
      rw [h]
    rw [hr]
    exact taken_of_contracts_failed hc hf h _

/-- What a call leaves of the sequences: it runs out of ids exactly when fewer values are left than it has rows to propose;
otherwise the sequences have moved by the number of rows it proposed, whatever became of the call. -/
structure Sequences (st : Store) (db : Db) (call : Call) (rows : List InvocationRow) (r : Saved) : Prop where
  withinLimit : WithinLimit r.db
  outOfIds : OutOfIds r ↔ ¬Enough st db call rows
  contracts : Enough st db call rows →
    r.db.dicts.contracts.last = db.dicts.contracts.last + (contractProposals st call rows).length
  functions : Enough st db call rows →
    r.db.dicts.functions.last = db.dicts.functions.last + (functionProposals st call rows).length

/-- A call that proposes nothing and leaves the database. -/
theorem sequences_of_idle {st : Store} {db : Db} {call : Call} {rows : List InvocationRow} {e : SaveError}
    (h : WithinLimit db) (hc : contractProposals st call rows = []) (hf : functionProposals st call rows = [])
    (he : e ≠ .noId .contracts ∧ e ≠ .noId .functions) : Sequences st db call rows ⟨st, db, some e⟩ := by
  have henough : Enough st db call rows := by
    rw [Enough, hc, hf]
    exact ⟨h.contracts, h.functions⟩
  refine ⟨h, iff_of_false ?_ (not_not.mpr henough), fun _ => by rw [hc]; rfl, fun _ => by rw [hf]; rfl⟩
  rintro (hout | hout)
  · exact he.1 (Option.some.inj hout)
  · exact he.2 (Option.some.inj hout)

theorem saveLedger_sequences {st : Store} {db : Db} {call : Call} {ledgerSeq : BitVec 32} {rows : List InvocationRow}
    (h : WithinLimit db) : Sequences st db call rows (saveLedger acceptsTime st db call ledgerSeq rows) := by
  unfold saveLedger
  cases hps : rows.mapM prepareRow with
  | error e =>
    obtain ⟨row, -, hrow⟩ := exists_error_of_mapM hps
    refine sequences_of_idle h (by simp [contractProposals, hps]) (by simp [functionProposals, hps]) ?_
    rcases error_of_prepareRow hrow with rfl | rfl <;> simp
  | ok ps =>
    by_cases hstart : (call.breaks .start).isSome = true
    · simp only [hstart, if_true]
      exact sequences_of_idle h (by simp [contractProposals, hps, hstart]) (by simp [functionProposals, hps, hstart])
        (by simp)
    · have ht := taken_resolveAll st call ps h.contracts h.functions
      have hcs : contractProposals st call rows =
          proposedKeys call .contracts ((missingContracts st call ps).map (·.2)) := by
        simp [contractProposals, hps, hstart]
      have hfs : functionProposals st call rows = (if (call.breaks .contracts).isSome then []
          else if (missingFunctions st call ps).all acceptsText then
            proposedKeys call .functions (missingFunctions st call ps)
          else []) := by
        simp [functionProposals, hps, hstart]
      rw [← hcs, ← hfs] at ht
      have hcle : db.dicts.contracts.last ≤ (resolveAll st call db.dicts ps).1.contracts.last := by
        rw [ht.contracts]
        exact le_min (Nat.le_add_right _ _) h.contracts
      -- whatever comes after the resolve statements, the sequences stand where these left them
      have finish : ∀ r : Saved, r.db.dicts.contracts.last = (resolveAll st call db.dicts ps).1.contracts.last →
          r.db.dicts.functions.last = (resolveAll st call db.dicts ps).1.functions.last →
          (OutOfIds r ↔ ((resolveAll st call db.dicts ps).2 = some (.noId .contracts) ∨
            (resolveAll st call db.dicts ps).2 = some (.noId .functions))) → Sequences st db call rows r := by
        intro r hrc hrf hout
        refine ⟨⟨?_, ?_⟩, hout.trans ht.outOfIds, fun hen => ?_, fun hen => ?_⟩
        · rw [hrc, ht.contracts]
          exact min_le_right _ _
        · rw [hrf]
          exact ht.functions_le.2
        · rw [hrc, ht.contracts, min_eq_left hen.1]
        · rw [hrf, ht.functions hen.1, min_eq_left hen.2]
      simp only [if_neg hstart]
      rcases heq : resolveAll st call db.dicts ps with ⟨d, _ | e⟩
      · rw [heq] at finish hcle
        have hfle := ht.functions_le.1
        rw [heq] at hfle
        obtain ⟨hbc, hbf⟩ := commitBatch_last acceptsTime st db call ledgerSeq d ps hcle hfle
        exact finish _ hbc hbf (iff_of_false (commitBatch_not_outOfIds _ _ _ _ _ _) (by simp))
      · rw [heq] at finish hcle
        have hfle := ht.functions_le.1
        rw [heq] at hfle
        exact finish _ (max_eq_right hcle) (max_eq_right hfle) Iff.rfl

end Call

end Soroscan

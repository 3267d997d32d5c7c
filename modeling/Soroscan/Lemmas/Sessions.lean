import Soroscan.Sessions
import Soroscan.Lemmas.Accepts
import Soroscan.Lemmas.Observed
import Soroscan.Lib.Run

/-!
# What every interleaving keeps

What a step does to the dictionaries, seen from outside its transaction, is a `Tables.Moves`: committed rows stay, and no other
transaction loses a row it sees. So what a call knows stays true while the others go on, and what it knows at each point is a
`Session.Inv`: its snapshots hold committed ids, the ids it found are ids it sees, and no key is left out that it has passed.
-/

namespace Soroscan

/-! ## Maps that are merged -/

/-- Two caches that agree with the tables agree with them when one is merged into the other. -/
theorem Store.Sound.mergeAll {dst src : Store} {d : Dicts} (h : dst.Sound d) (h' : src.Sound d) : (dst.mergeAll src).Sound d where
  contracts key id hk := (mergeInto_eq_some hk).elim (h'.contracts key id) (h.contracts key id)
  functions key id hk := (mergeInto_eq_some hk).elim (h'.functions key id) (h.functions key id)
  addresses key id hk := (mergeInto_eq_some hk).elim (h'.addresses key id) (h.addresses key id)

/-! ## Rows and what they stand for -/

/-- The contract id of a stored row leads back to the contract that the strkey of an invocation names, and is not 0. -/
def CarriesContract (d : Dicts) (row : InvocationRow) (r : TxRow) : Prop :=
  ∃ raw, decodeStrkey row.contractID strkeyVersionContract = some raw ∧ d.contracts.keyOf r.contractId = some raw ∧
    r.contractId ≠ 0

/-- A stored row carries the rest of what its invocation says: its function id leads back to the function name, and each address
of its arguments has become the placeholder of an id that leads back to it. No id is 0. -/
structure Carries (d : Dicts) (row : InvocationRow) (r : TxRow) : Prop where
  txHash : r.txHash = row.txHash
  ledger : r.ledger = row.ledger.toNat
  closedAt : r.ledgerClosedAt = row.closedAt
  feeCharged : r.feeCharged = row.feeCharged
  function : d.functions.keyOf r.function = some row.function ∧ r.function ≠ 0
  args : ∃ parsed, parsedArgsOf row.argsJSON = .ok parsed ∧ ∃ ids, r.args = parsed.map (rewriteAddresses ids) ∧
    ∀ v, parsed = some v → ∀ a ∈ collectAddresses v, ∃ id, ids a = some id ∧
      d.argAddresses.keyOf id.toNat = some a ∧ id ≠ 0

/-- A row that carries its contract carries it when the tables grow. -/
theorem CarriesContract.grows {d d' : Dicts} {row : InvocationRow} {r : TxRow} (h : CarriesContract d row r) (hg : d.Grows d') :
    CarriesContract d' row r := by
  obtain ⟨raw, hraw, hkey, hid⟩ := h
  exact ⟨raw, hraw, hg.contracts.keyOf hkey, hid⟩

/-- A row that carries its keys carries them when the tables grow. -/
theorem Carries.grows {d d' : Dicts} {row : InvocationRow} {r : TxRow} (h : Carries d row r) (hg : d.Grows d') :
    Carries d' row r := by
  obtain ⟨parsed, hparsed, ids, hargs, haddr⟩ := h.args
  refine ⟨h.txHash, h.ledger, h.closedAt, h.feeCharged, ⟨hg.functions.keyOf h.function.1, h.function.2⟩, parsed, hparsed, ids,
    hargs, fun v hv a ha => ?_⟩
  obtain ⟨id, hida, hka, hne⟩ := haddr v hv a ha
  exact ⟨id, hida, hg.argAddresses.keyOf hka, hne⟩

/-- Every key of the rows that were read has an id: a contract if no contract is spelled in two ways. -/
structure HasIDs (ids : Store) (rows : List InvocationRow) (ps : List PreparedRow) : Prop where
  contracts : OneSpelling rows → ∀ p ∈ ps, ∃ id, ids.contracts p.row.contractID = some id
  functions : ∀ name ∈ wantedFunctions ps, ∃ id, ids.functions name = some id
  addresses : ∀ a ∈ wantedAddresses ps, ∃ id, ids.addresses a = some id

/-- An id is positive and at most the last one. -/
theorem pos_of_idOf {κ : Type} [DecidableEq κ] {d : Dict κ} {k : κ} {id : Nat} (h : d.idOf k = some id) : 0 < id ∧ id ≤ d.last :=
  d.ids_le _ (Dict.idOf_eq_some_iff.mp h)

section

variable {acceptsTime : Time → Bool}

/-- The contract id of a row that is written with ids of the dictionaries leads back to its contract. -/
theorem carriesContract_of_txRow {ids : Store} {d : Dicts} {rows : List InvocationRow} {ps : List PreparedRow} {p : PreparedRow}
    {r : TxRow} (hids : ids.Sound d) (hall : HasIDs ids rows ps) (hone : OneSpelling rows) (hp : p ∈ ps)
    (h : txRow acceptsTime ids p = some r) : CarriesContract d p.row r := by
  obtain ⟨cid, hcid⟩ := hall.contracts hone p hp
  obtain ⟨raw, hraw, hrawId⟩ := hids.contracts _ _ hcid
  obtain ⟨args, hr⟩ := txRow_eq h
  have hc : r.contractId = cid := by rw [hr, txRow.row, hcid, Option.getD_some]
  refine ⟨raw, hraw, ?_, ?_⟩ <;> rw [hc]
  · exact Dict.keyOf_eq_some_iff_idOf.mpr hrawId
  · exact (pos_of_idOf hrawId).1.ne'

/-- A row that is written with ids of the dictionaries carries what its invocation says. -/
theorem carries_of_txRow {ids : Store} {d : Dicts} {rows : List InvocationRow} {ps : List PreparedRow} {p : PreparedRow}
    {r : TxRow} (hids : ids.Sound d) (hlast : d.argAddresses.last ≤ serialMax) (hps : rows.mapM prepareRow = .ok ps)
    (hall : HasIDs ids rows ps) (hp : p ∈ ps) (h : txRow acceptsTime ids p = some r) : Carries d p.row r := by
  obtain ⟨row, -, hreads⟩ := exists_of_forall₂_right (reads_of_prepare hps) hp
  have hrow := hreads.row_eq
  subst hrow
  obtain ⟨fid, hfid⟩ := hall.functions p.row.function (mem_wantedFunctions.mpr ⟨p, hp, rfl⟩)
  have hname := hids.functions _ _ hfid
  obtain ⟨args, hr⟩ := txRow_eq h
  have hf : r.function = fid := by rw [hr, txRow.row, hfid, Option.getD_some]
  refine ⟨by rw [hr]; rfl, by rw [hr]; rfl, by rw [hr]; rfl, by rw [hr]; rfl, ⟨?_, ?_⟩,
    p.parsedArgs, hreads.args_eq, ids.addressIDs, args_of_txRow hreads h, fun v hv a ha => ?_⟩
  · rw [hf]
    exact Dict.keyOf_eq_some_iff_idOf.mpr hname
  · rw [hf]
    exact (pos_of_idOf hname).1.ne'
  · have hwanted : a ∈ wantedAddresses ps := by
      rw [wantedAddresses, List.mem_dedup, List.mem_flatMap]
      exact ⟨p, hp, by rw [hv]; exact ha⟩
    obtain ⟨id, hid⟩ := hall.addresses a hwanted
    have hidOf := hids.addresses _ _ hid
    obtain ⟨hpos, hle⟩ := pos_of_idOf hidOf
    have hsmall : id < 2 ^ 32 := lt_of_le_of_lt (hle.trans hlast) (by decide)
    have hnat : (BitVec.ofNat 32 id).toNat = id := by rw [BitVec.toNat_ofNat, Nat.mod_eq_of_lt hsmall]
    refine ⟨BitVec.ofNat 32 id, by rw [Store.addressIDs, hid]; rfl, ?_, fun hzero => ?_⟩
    · rw [hnat]
      exact Dict.keyOf_eq_some_iff_idOf.mpr hidOf
    · rw [hzero] at hnat
      exact hpos.ne hnat

end

namespace Sessions

/-! ## What a step does to the dictionaries -/

/-- What a transaction does, seen from outside: committed rows stay, no other transaction loses a row it sees, and no address
gets an id past the column. -/
structure Tables.Moves (mover : Owner) (t t' : Tables) : Prop where
  committed : t.committed.Grows t'.committed
  seen : ∀ o, o ≠ mover → (t.seen o).Grows (t'.seen o)
  last : t.argAddresses.all.last ≤ serialMax → t'.argAddresses.all.last ≤ serialMax

/-- Nothing moves. -/
theorem Tables.Moves.refl (mover : Owner) (t : Tables) : t.Moves mover t :=
  ⟨Dicts.Grows.refl _, fun _ _ => Dicts.Grows.refl _, id⟩

/-- A transaction sees what is committed, and its own rows. -/
theorem Tables.committed_grows_seen (t : Tables) (o : Owner) : t.committed.Grows (t.seen o) :=
  ⟨t.contracts.committed_grows_seen o, t.functions.committed_grows_seen o, t.argAddresses.committed_grows_seen o⟩

/-- What a transaction sees is committed with it. -/
theorem Tables.seen_grows_commit (t : Tables) (o : Owner) : (t.seen o).Grows (t.commit o).committed :=
  ⟨t.contracts.seen_grows_commit o, t.functions.seen_grows_commit o, t.argAddresses.seen_grows_commit o⟩

/-- A commit only adds to what is committed. -/
theorem Tables.moves_commit (t : Tables) (o : Owner) : t.Moves o (t.commit o) where
  committed := (t.committed_grows_seen o).trans (t.seen_grows_commit o)
  seen _ ho := ⟨t.contracts.seen_grows_commit_other ho, t.functions.seen_grows_commit_other ho,
    t.argAddresses.seen_grows_commit_other ho⟩
  last := id

/-- Two states of the tables show everyone the same: they may differ in the sequences and in the rows of open transactions. -/
structure Tables.Same (t t' : Tables) : Prop where
  contracts : t'.committed.contracts.rows = t.committed.contracts.rows
  functions : t'.committed.functions.rows = t.committed.functions.rows
  argAddresses : t'.committed.argAddresses.rows = t.committed.argAddresses.rows
  transactions : t'.transactions = t.transactions
  checkpoints : t'.checkpoints = t.checkpoints

theorem Tables.Same.refl (t : Tables) : t.Same t := ⟨rfl, rfl, rfl, rfl, rfl⟩

theorem Tables.Same.grows {t t' : Tables} (h : t.Same t') : t.committed.Grows t'.committed :=
  ⟨fun _ hr => h.contracts ▸ hr, fun _ hr => h.functions ▸ hr, fun _ hr => h.argAddresses ▸ hr⟩

/-- An abort leaves what is committed as it is. -/
theorem Tables.same_abort (t : Tables) (o : Owner) : t.Same (t.abort o) :=
  ⟨t.contracts.committed_abort_rows o, t.functions.committed_abort_rows o, t.argAddresses.committed_abort_rows o, rfl, rfl⟩

theorem Tables.moves_abort (t : Tables) (o : Owner) : t.Moves o (t.abort o) where
  committed := (t.same_abort o).grows
  seen _ ho := ⟨t.contracts.seen_grows_abort_other ho, t.functions.seen_grows_abort_other ho,
    t.argAddresses.seen_grows_abort_other ho⟩
  last := id

/-- What a proposal inside a transaction leaves: no one sees it from outside, and nobody loses a row. -/
structure Tables.Proposes (t t' : Tables) : Prop where
  same : t.Same t'
  seen : ∀ o, (t.seen o).Grows (t'.seen o)

/-- A contract that is proposed is in its table, and nothing else changes. -/
theorem proposes_contract {t t' : Tables} {o : Owner} {raw : Bytes32} (h : t.proposeContract o raw = some t') :
    t.Proposes t' ∧ t.Moves o t' ∧ raw ∈ (t'.seen o).contracts.keys := by
  obtain ⟨contracts, hc, rfl⟩ := Option.map_eq_some_iff.mp h
  have hp : t.Proposes { t with contracts } := ⟨⟨Shared.committed_propose_rows hc, rfl, rfl, rfl, rfl⟩,
    fun o' => ⟨Shared.seen_grows_propose hc o', Dict.Grows.refl _, Dict.Grows.refl _⟩⟩
  exact ⟨hp, ⟨hp.same.grows, fun o' _ => hp.seen o', id⟩, Shared.mem_seen_keys_propose hc⟩

/-- A function that is proposed is in its table, and nothing else changes. -/
theorem proposes_function {t t' : Tables} {o : Owner} {name : Bytes} (h : t.proposeFunction o name = some t') :
    t.Proposes t' ∧ t.Moves o t' ∧ name ∈ (t'.seen o).functions.keys := by
  obtain ⟨functions, hf, rfl⟩ := Option.map_eq_some_iff.mp h
  have hp : t.Proposes { t with functions } := ⟨⟨rfl, Shared.committed_propose_rows hf, rfl, rfl, rfl⟩,
    fun o' => ⟨Dict.Grows.refl _, Shared.seen_grows_propose hf o', Dict.Grows.refl _⟩⟩
  exact ⟨hp, ⟨hp.same.grows, fun o' _ => hp.seen o', id⟩, Shared.mem_seen_keys_propose hf⟩

/-- An address that is proposed is in its table, and nothing else changes. -/
theorem proposes_address {t t' : Tables} {o : Owner} {a : Text} (h : t.proposeAddress o a = some t')
    (hlast : t.argAddresses.all.last < serialMax) :
    t.Proposes t' ∧ t.Moves o t' ∧ a ∈ (t'.seen o).argAddresses.keys := by
  obtain ⟨argAddresses, ha, rfl⟩ := Option.map_eq_some_iff.mp h
  have hp : t.Proposes { t with argAddresses } := ⟨⟨rfl, rfl, Shared.committed_propose_rows ha, rfl, rfl⟩,
    fun o' => ⟨Dict.Grows.refl _, Dict.Grows.refl _, Shared.seen_grows_propose ha o'⟩⟩
  refine ⟨hp, ⟨hp.same.grows, fun o' _ => hp.seen o', fun _ => ?_⟩, Shared.mem_seen_keys_propose ha⟩
  show argAddresses.all.last ≤ serialMax
  rw [Shared.propose_last ha]
  omega

/-! ## What a call knows -/

/-- The snapshots of a call hold committed ids, and the ids it found are ids it sees. -/
structure Locals.Sound (l : Locals) (rows : List InvocationRow) (committed seen : Dicts) : Prop where
  prepared : rows.mapM prepareRow = .ok l.ps
  known : l.known.Sound committed
  found : l.found.Sound seen

/-- A statement has passed the keys it has not yet to propose: they are in the table. -/
def Passed {κ : Type} (keys todo : List κ) (d : Dict κ) : Prop := ∀ k ∈ keys, k ∈ todo ∨ k ∈ d.keys

/-- At first no key is passed. -/
theorem passed_start {κ : Type} (keys : List κ) (d : Dict κ) : Passed keys keys d := fun _ hk => Or.inl hk

theorem Passed.grows {κ : Type} {keys todo : List κ} {d d' : Dict κ} (h : Passed keys todo d) (hg : d.Grows d') :
    Passed keys todo d' := fun k hk => (h k hk).imp_right fun hd => List.map_subset _ hg hd

/-- A key that has its row is passed. -/
theorem Passed.next {κ : Type} {keys todo : List κ} {k : κ} {d d' : Dict κ} (h : Passed keys (k :: todo) d) (hg : d.Grows d')
    (hk : k ∈ d'.keys) : Passed keys todo d' := by
  intro k' hk'
  rcases h k' hk' with hmem | hmem
  · rcases List.mem_cons.mp hmem with rfl | hmem
    · exact Or.inr hk
    · exact Or.inl hmem
  · exact Or.inr (List.map_subset _ hg hmem)

/-- A statement at its end has passed every key: each has an id. -/
theorem Passed.ids {κ : Type} [DecidableEq κ] {keys : List κ} {d : Dict κ} (h : Passed keys [] d) :
    ∀ k ∈ keys, ∃ id, d.idOf k = some id := fun k hk =>
  Dict.mem_keys_iff.mp ((h k hk).resolve_left List.not_mem_nil)

/-- The contracts of a call have ids, if none is spelled in two ways. -/
def Locals.HasContracts (l : Locals) (rows : List InvocationRow) : Prop :=
  OneSpelling rows → ∀ p ∈ l.ps, ∃ id, l.ids.contracts p.row.contractID = some id

/-- The function names of a call have ids. -/
def Locals.HasFunctions (l : Locals) : Prop := ∀ name ∈ wantedFunctions l.ps, ∃ id, l.ids.functions name = some id

/-- What holds of a call at each point, by the committed rows and those it sees. -/
def Session.Inv (s : Session) (committed seen : Dicts) : Prop :=
  match s.phase with
  | .called | .returned _ => True
  | .snapshotContracts l | .snapshotFunctions l | .snapshotAddresses l | .begin l => l.Sound s.rows committed seen
  | .resolveContracts l todo =>
    l.Sound s.rows committed seen ∧ Passed ((s.missingContracts l).map (·.2)) todo seen.contracts
  | .resolveFunctions l todo =>
    l.Sound s.rows committed seen ∧ l.HasContracts s.rows ∧ Passed (s.missingFunctions l) todo seen.functions
  | .resolveAddresses l todo =>
    l.Sound s.rows committed seen ∧ l.HasContracts s.rows ∧ l.HasFunctions ∧
      Passed (s.missingAddresses l) todo seen.argAddresses
  | .batch l => l.Sound s.rows committed seen ∧ HasIDs l.ids s.rows l.ps
  | .commit l written => l.found.Sound seen ∧
      ∀ r ∈ written, ∃ row ∈ s.rows, Carries seen row r ∧ (OneSpelling s.rows → CarriesContract seen row r)
  | .merge l => l.found.Sound committed

theorem Locals.Sound.grows {l : Locals} {rows : List InvocationRow} {c c' d d' : Dicts} (h : l.Sound rows c d)
    (hc : c.Grows c') (hd : d.Grows d') : l.Sound rows c' d' := ⟨h.prepared, h.known.grows hc, h.found.grows hd⟩

/-- What a call knows stays true while the dictionaries grow. -/
theorem Session.Inv.grows {s : Session} {c c' d d' : Dicts} (h : s.Inv c d) (hc : c.Grows c') (hd : d.Grows d') : s.Inv c' d' := by
  unfold Session.Inv at h ⊢
  cases hphase : s.phase <;> simp only [hphase] at h ⊢
  case snapshotContracts | snapshotFunctions | snapshotAddresses | begin => exact h.grows hc hd
  case resolveContracts => exact ⟨h.1.grows hc hd, h.2.grows hd.contracts⟩
  case resolveFunctions => exact ⟨h.1.grows hc hd, h.2.1, h.2.2.grows hd.functions⟩
  case resolveAddresses => exact ⟨h.1.grows hc hd, h.2.1, h.2.2.1, h.2.2.2.grows hd.argAddresses⟩
  case batch => exact ⟨h.1.grows hc hd, h.2⟩
  case commit =>
    refine ⟨h.1.grows hd, fun r hr => ?_⟩
    obtain ⟨row, hrow, hcarries, hcontract⟩ := h.2 r hr
    exact ⟨row, hrow, hcarries.grows hd, fun hone => (hcontract hone).grows hd⟩
  case merge => exact h.grows hc

/-! ## What a call finds -/

/-- The contracts have ids once they are read. -/
theorem hasContracts_of_passed {s : Session} {l : Locals} {c d : Dicts} (h : l.Sound s.rows c d)
    (hpassed : Passed ((s.missingContracts l).map (·.2)) [] d.contracts) :
    ({ l with found := { l.found with contracts := resolvedContracts d.contracts (s.missingContracts l) } } : Locals).HasContracts
      s.rows := by
  intro hone p hp
  show ∃ id, mergeInto l.known.contracts (resolvedContracts d.contracts (s.missingContracts l)) p.row.contractID = some id
  cases hc : l.known.contracts p.row.contractID with
  | some id => exact exists_mergeInto_of_dst _ hc
  | none =>
    have hm : (p.row.contractID, p.raw) ∈ s.missingContracts l :=
      mem_missingContracts.mpr ⟨mem_wantedContracts.mpr ⟨p, hp, rfl⟩, hc⟩
    obtain ⟨id, hid⟩ := hpassed.ids p.raw (List.mem_map_of_mem hm)
    exact ⟨id, mergeInto_of_src (resolvedContracts_missing h.prepared hone hm hid)⟩

/-- The ids of the contracts that were read are ids the call sees. -/
theorem Locals.Sound.foundContracts {s : Session} {l : Locals} {c d : Dicts} (h : l.Sound s.rows c d) :
    ({ l with found := { l.found with contracts := resolvedContracts d.contracts (s.missingContracts l) } } : Locals).Sound
      s.rows c d := by
  refine ⟨h.prepared, h.known, fun key id hk => ?_, h.found.functions, h.found.addresses⟩
  obtain ⟨raw, hmem, hid⟩ := idOf_of_resolvedContracts hk
  obtain ⟨row, -, -, hraw⟩ := row_of_missingContracts h.prepared hmem
  exact ⟨raw, hraw, hid⟩

/-- The function names have ids once they are read. -/
theorem hasFunctions_of_passed {s : Session} {l : Locals} {d : Dict Bytes} (hpassed : Passed (s.missingFunctions l) [] d) :
    ({ l with found := { l.found with functions := resolvedKeys d (s.missingFunctions l) } } : Locals).HasFunctions :=
  fun _ hk => exists_mergeInto_resolvedKeys (fun _ hw hc => mem_missingFunctions.mpr ⟨hw, hc⟩) hpassed.ids hk

/-- The addresses have ids once they are read. -/
theorem hasAddresses_of_passed {s : Session} {l : Locals} {d : Dict Text} (hpassed : Passed (s.missingAddresses l) [] d) :
    ∀ a ∈ wantedAddresses l.ps, ∃ id, mergeInto l.known.addresses (resolvedKeys d (s.missingAddresses l)) a = some id :=
  fun _ hk => exists_mergeInto_resolvedKeys (fun _ hw hc => mem_missingAddresses.mpr ⟨hw, hc⟩) hpassed.ids hk

/-! ## What a call does -/

/-- The call is committed: it has to merge, or has returned without an error. -/
def Phase.isCommitted : Phase → Bool
  | .merge _ | .returned none => true
  | _ => false

/-- Nothing breaks once a call is committed. -/
theorem stage_of_isCommitted {p : Phase} (h : p.isCommitted = true) : p.stage = none := by
  cases p <;> first | rfl | cases h

variable {acceptsTime : Time → Bool}

/-- What a call does when it goes on: nothing that is seen from outside, or it is committed, or it merges what it found. -/
inductive Session.Advances (s : Session) (o : Owner) (st : Store) (t : Tables) : Advance → Prop where
  | quietly {t' : Tables} {phase : Phase} : t.Same t' → t.Moves o t' → s.phase.isCommitted = false →
      phase.isCommitted = false → s.Advances o st t ⟨st, t', phase⟩
  | commits {l : Locals} {written : List TxRow} : s.phase = .commit l written →
      s.Advances o st t ⟨st, { t.commit o with transactions := written.foldl insertRow t.transactions,
                                               checkpoints := advanceWorker t.checkpoints s.ledgerSeq }, .merge l⟩
  | merges {l : Locals} : s.phase = .merge l → s.Advances o st t ⟨st.mergeAll l.found, t, .returned none⟩

/-- A session that fails rolls its transaction back. -/
theorem advances_failed {s : Session} {o : Owner} {st : Store} {t : Tables} (hs : s.phase.isCommitted = false) (e : SaveError) :
    s.Advances o st t (.failed st t o e) := .quietly (t.same_abort o) (t.moves_abort o) hs rfl

theorem advances_same {s : Session} {o : Owner} {st : Store} {t : Tables} {phase : Phase} (hs : s.phase.isCommitted = false)
    (hphase : phase.isCommitted = false) : s.Advances o st t ⟨st, t, phase⟩ :=
  .quietly (Tables.Same.refl t) (Tables.Moves.refl o t) hs hphase

/-- What one step of a session does is one of the cases. -/
theorem advances_of_advance {s : Session} {o : Owner} {st : Store} {t : Tables} {a : Advance}
    (h : s.advance acceptsTime o st t = some a) : s.Advances o st t a := by
  unfold Session.advance at h
  split at h <;> rename_i hphase
  · have hs : s.phase.isCommitted = false := by rw [hphase]; rfl
    split at h <;> cases h <;> exact advances_same hs rfl
  · cases h
    exact advances_same (by rw [hphase]; rfl) rfl
  · cases h
    exact advances_same (by rw [hphase]; rfl) rfl
  · cases h
    exact advances_same (by rw [hphase]; rfl) rfl
  · cases h
    exact advances_same (by rw [hphase]; rfl) rfl
  · have hs : s.phase.isCommitted = false := by rw [hphase]; rfl
    split_ifs at h
    · obtain ⟨t', ht, rfl⟩ := Option.map_eq_some_iff.mp h
      obtain ⟨hp, hm, -⟩ := proposes_contract ht
      exact .quietly hp.same hm hs rfl
    · cases h
      exact advances_failed hs _
  · have hs : s.phase.isCommitted = false := by rw [hphase]; rfl
    simp only at h
    split_ifs at h <;> cases h
    · exact advances_same hs rfl
    · exact advances_failed hs _
  · have hs : s.phase.isCommitted = false := by rw [hphase]; rfl
    split_ifs at h
    · obtain ⟨t', ht, rfl⟩ := Option.map_eq_some_iff.mp h
      obtain ⟨hp, hm, -⟩ := proposes_function ht
      exact .quietly hp.same hm hs rfl
    · cases h
      exact advances_failed hs _
  · cases h
    exact advances_same (by rw [hphase]; rfl) rfl
  · have hs : s.phase.isCommitted = false := by rw [hphase]; rfl
    split_ifs at h with hlast
    · obtain ⟨t', ht, rfl⟩ := Option.map_eq_some_iff.mp h
      obtain ⟨hp, hm, -⟩ := proposes_address ht hlast
      exact .quietly hp.same hm hs rfl
    · cases h
      exact advances_failed hs _
  · cases h
    exact advances_same (by rw [hphase]; rfl) rfl
  · have hs : s.phase.isCommitted = false := by rw [hphase]; rfl
    split at h <;> cases h
    · exact advances_failed hs _
    · exact advances_same hs rfl
  · cases h
    exact .commits hphase
  · cases h
    exact .merges hphase
  · cases h

theorem Tables.Moves.store {o : Owner} {st : Store} {t t' : Tables} (h : t.Moves o t') (hst : st.Sound t.committed) :
    st.Sound t'.committed := hst.grows h.committed

/-- The caches hold committed ids after a step of a call. -/
theorem Session.Advances.store {s : Session} {o : Owner} {st : Store} {t : Tables} {a : Advance} (h : s.Advances o st t a)
    (hst : st.Sound t.committed) (hs : s.Inv t.committed (t.seen o)) : a.store.Sound a.tables.committed := by
  cases h with
  | quietly _ hm => exact hm.store hst
  | commits => exact (t.moves_commit o).store hst
  | merges hphase =>
    unfold Session.Inv at hs
    rw [hphase] at hs
    exact hst.mergeAll hs

/-- A step of a call takes no row from the others, and no address gets an id past the column. -/
theorem Session.Advances.moves {s : Session} {o : Owner} {st : Store} {t : Tables} {a : Advance} (h : s.Advances o st t a) :
    t.Moves o a.tables := by
  cases h with
  | quietly _ hm => exact hm
  | commits => exact ⟨(t.moves_commit o).committed, (t.moves_commit o).seen, id⟩
  | merges => exact Tables.Moves.refl o t

/-- What a call knows at one point, it knows at the next. -/
theorem Session.Inv.advance {s : Session} {o : Owner} {st : Store} {t : Tables} {a : Advance}
    (h : s.advance acceptsTime o st t = some a) (hst : st.Sound t.committed) (hlast : t.argAddresses.all.last ≤ serialMax)
    (hs : s.Inv t.committed (t.seen o)) : Session.Inv { s with phase := a.phase } a.tables.committed (a.tables.seen o) := by
  unfold Session.advance at h
  unfold Session.Inv at hs
  split at h <;> rename_i hphase <;> rw [hphase] at hs
  · -- the rows are read
    split at h <;> cases h
    · trivial
    · rename_i ps hps
      exact ⟨hps, Store.new_sound _, Store.new_sound _⟩
  · cases h
    exact ⟨hs.prepared, ⟨hst.contracts, hs.known.functions, hs.known.addresses⟩, hs.found⟩
  · cases h
    exact ⟨hs.prepared, ⟨hs.known.contracts, hst.functions, hs.known.addresses⟩, hs.found⟩
  · cases h
    exact ⟨hs.prepared, ⟨hs.known.contracts, hs.known.functions, hst.addresses⟩, hs.found⟩
  · cases h
    exact ⟨hs, passed_start _ _⟩
  · -- a contract is proposed
    split_ifs at h
    · obtain ⟨t', ht, rfl⟩ := Option.map_eq_some_iff.mp h
      obtain ⟨hp, hm, hkey⟩ := proposes_contract ht
      exact ⟨hs.1.grows hm.committed (hp.seen o), hs.2.next (hp.seen o).contracts hkey⟩
    · cases h
      trivial
  · simp only at h
    split_ifs at h <;> cases h
    · exact ⟨hs.1.foundContracts, hasContracts_of_passed hs.1 hs.2, passed_start _ _⟩
    · trivial
  · -- a function name is proposed
    split_ifs at h
    · obtain ⟨t', ht, rfl⟩ := Option.map_eq_some_iff.mp h
      obtain ⟨hp, hm, hkey⟩ := proposes_function ht
      exact ⟨hs.1.grows hm.committed (hp.seen o), hs.2.1, hs.2.2.next (hp.seen o).functions hkey⟩
    · cases h
      trivial
  · cases h
    obtain ⟨hsound, hcontracts, hpassed⟩ := hs
    exact ⟨⟨hsound.prepared, hsound.known, hsound.found.contracts, fun _ _ hk => idOf_of_resolvedKeys hk,
      hsound.found.addresses⟩, hcontracts, hasFunctions_of_passed hpassed, passed_start _ _⟩
  · -- an address is proposed
    split_ifs at h with hroom
    · obtain ⟨t', ht, rfl⟩ := Option.map_eq_some_iff.mp h
      obtain ⟨hp, hm, hkey⟩ := proposes_address ht hroom
      exact ⟨hs.1.grows hm.committed (hp.seen o), hs.2.1, hs.2.2.1, hs.2.2.2.next (hp.seen o).argAddresses hkey⟩
    · cases h
      trivial
  · cases h
    obtain ⟨hsound, hcontracts, hfunctions, hpassed⟩ := hs
    exact ⟨⟨hsound.prepared, hsound.known, hsound.found.contracts, hsound.found.functions,
      fun _ _ hk => idOf_of_resolvedKeys hk⟩, hcontracts, hfunctions, hasAddresses_of_passed hpassed⟩
  · -- the batch: a row that every column accepts carries what its invocation says
    split at h <;> cases h
    · trivial
    · rename_i l _ written hwritten
      obtain ⟨hsound, hids⟩ := hs
      have hsoundIds : l.ids.Sound (t.seen o) := (hsound.known.grows (t.committed_grows_seen o)).mergeAll hsound.found
      refine ⟨hsound.found, fun r hr => ?_⟩
      obtain ⟨p, hp, hrow⟩ := exists_of_forall₂_right (forall₂_of_mapM_some hwritten) hr
      refine ⟨p.row, ?_, carries_of_txRow hsoundIds hlast hsound.prepared hids hp hrow,
        fun hone => carriesContract_of_txRow hsoundIds hids hone hp hrow⟩
      rw [← map_row_of_prepare hsound.prepared]
      exact List.mem_map_of_mem hp
  · cases h
    exact hs.1.grows (t.seen_grows_commit o)
  · cases h
    trivial
  · cases h

/-! ## The process -/

/-- What holds in every state: the caches hold committed ids, each call knows what it knows, and the ids of the addresses fit
their column. -/
structure State.Inv (w : State) : Prop where
  store : w.store.Sound w.tables.committed
  sessions : ∀ i s, w.sessions i = some s → s.Inv w.tables.committed (w.tables.seen (.call i))
  last : w.tables.argAddresses.all.last ≤ serialMax

/-- The invariant holds of a database at the start. -/
theorem State.inv_start {db : Db} (h : db.dicts.argAddresses.last ≤ serialMax) : (State.start db).Inv :=
  ⟨Store.new_sound _, fun _ _ hs => (Option.some_ne_none _ hs.symm).elim, h⟩

theorem put_sessions_of_ne {w : State} {i j : Nat} (h : i ≠ j) (s : Session) : (w.put j s).sessions i = w.sessions i :=
  Function.update_of_ne h _ _

theorem moved_sessions_of_ne {w : State} {i j : Nat} (h : i ≠ j) (s : Session) (a : Advance) :
    (w.moved j s a).sessions i = w.sessions i := Function.update_of_ne h _ _

/-- A call by its number, after one was put at its point. -/
theorem session_update {sessions : Nat → Option Session} {i j : Nat} {s s' : Session}
    (h : Function.update sessions i (some s) j = some s') : (j = i ∧ s' = s) ∨ (j ≠ i ∧ sessions j = some s') := by
  by_cases hj : j = i
  · subst hj
    rw [Function.update_self, Option.some.injEq] at h
    exact Or.inl ⟨rfl, h.symm⟩
  · rw [Function.update_of_ne hj] at h
    exact Or.inr ⟨hj, h⟩

/-- The calls that do not move keep what they know. -/
theorem State.Inv.others {w : State} (hi : w.Inv) {mover : Owner} {t' : Tables} (hm : w.tables.Moves mover t') {i : Nat}
    {s : Session} (hs : w.sessions i = some s) (hne : Owner.call i ≠ mover) : s.Inv t'.committed (t'.seen (.call i)) :=
  (hi.sessions i s hs).grows hm.committed (hm.seen _ hne)

/-- A call that moves leaves a state like the one before, if it knows at its new point what it has to know. -/
theorem State.Inv.moved {w : State} (hi : w.Inv) {i : Nat} {s : Session} {a : Advance} (hm : w.tables.Moves (.call i) a.tables)
    (hstore : a.store.Sound a.tables.committed)
    (hphase : Session.Inv { s with phase := a.phase } a.tables.committed (a.tables.seen (.call i))) : (w.moved i s a).Inv := by
  refine ⟨hstore, fun j s' hs' => ?_, hm.last hi.last⟩
  rcases session_update hs' with ⟨rfl, rfl⟩ | ⟨hj, hs'⟩
  · exact hphase
  · exact hi.others hm hs' fun heq => hj (Owner.call.inj heq)

/-- What another process does only adds to what is committed. -/
theorem moves_foreign {t t' : Tables} {o : Owner} {what : Foreign} (h : t.foreign o what = some t') : t.Moves o t' := by
  cases what with
  | contract raw =>
    simp only [Tables.foreign] at h
    split_ifs at h
    exact (proposes_contract h).2.1
  | function name =>
    simp only [Tables.foreign] at h
    split_ifs at h
    exact (proposes_function h).2.1
  | address a =>
    simp only [Tables.foreign] at h
    split_ifs at h with hlast
    exact (proposes_address h hlast).2.1
  | commit =>
    cases h
    exact t.moves_commit o
  | abort =>
    cases h
    exact t.moves_abort o

/-- Every event keeps what holds. -/
theorem State.Inv.step {w w' : State} {e : Event} (hi : w.Inv) (h : step acceptsTime w e = some w') : w'.Inv := by
  cases e with
  | call i ledgerSeq rows order =>
    simp only [Sessions.step] at h
    split at h <;> cases h
    refine ⟨hi.store, fun j s' hs' => ?_, hi.last⟩
    rcases session_update hs' with ⟨rfl, rfl⟩ | ⟨-, hs'⟩
    · trivial
    · exact hi.sessions j s' hs'
  | next i =>
    obtain ⟨s, hs, h⟩ := Option.bind_eq_some_iff.mp h
    obtain ⟨a, ha, rfl⟩ := Option.map_eq_some_iff.mp h
    have hadv := advances_of_advance ha
    exact hi.moved hadv.moves (hadv.store hi.store (hi.sessions i s hs)) ((hi.sessions i s hs).advance ha hi.store hi.last)
  | breaks i =>
    obtain ⟨s, hs, h⟩ := Option.bind_eq_some_iff.mp h
    obtain ⟨stage, -, rfl⟩ := Option.map_eq_some_iff.mp h
    have hm := w.tables.moves_abort (.call i)
    exact hi.moved hm (hm.store hi.store) trivial
  | other j what =>
    obtain ⟨t', ht, rfl⟩ := Option.map_eq_some_iff.mp h
    have hm := moves_foreign ht
    exact ⟨hm.store hi.store, fun i s hs => hi.others hm hs (by simp), hm.last hi.last⟩

/-- Committed rows stay. -/
theorem committed_grows_of_step {w w' : State} {e : Event} (h : Sessions.step acceptsTime w e = some w') :
    w.tables.committed.Grows w'.tables.committed := by
  cases e with
  | call i ledgerSeq rows order =>
    simp only [Sessions.step] at h
    split at h <;> cases h
    exact Dicts.Grows.refl _
  | next i =>
    obtain ⟨s, hs, h⟩ := Option.bind_eq_some_iff.mp h
    obtain ⟨a, ha, rfl⟩ := Option.map_eq_some_iff.mp h
    exact (advances_of_advance ha).moves.committed
  | breaks i =>
    obtain ⟨s, hs, h⟩ := Option.bind_eq_some_iff.mp h
    obtain ⟨stage, -, rfl⟩ := Option.map_eq_some_iff.mp h
    exact (w.tables.same_abort _).grows
  | other j what =>
    obtain ⟨t', ht, rfl⟩ := Option.map_eq_some_iff.mp h
    exact (moves_foreign ht).committed

/-- Over a run, what is committed grows. -/
theorem committed_grows_of_run {w w' : State} {es : List Event} (h : run (Sessions.step acceptsTime) w es = some w') :
    w.tables.committed.Grows w'.tables.committed :=
  run_invariant (P := fun v : State => w.tables.committed.Grows v.tables.committed)
    (fun _ _ _ hg hstep => hg.trans (committed_grows_of_step hstep)) (Dicts.Grows.refl _) h

end Sessions

end Soroscan

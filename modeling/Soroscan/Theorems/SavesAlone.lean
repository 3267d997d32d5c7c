import Soroscan.Lemmas.Sessions

/-!
# A call that no one comes in between

`saveLedger` is a call as a whole, `Sessions.step` a call from point to point. Where nothing comes in between, the second one
leaves what the first one says: the same caches, the same database, its sequences included, and the same error.
-/

namespace Soroscan

namespace Sessions

/-- The database as everyone sees it. -/
def Tables.db (t : Tables) : Db := ⟨t.committed, t.transactions, t.checkpoints⟩

/-- No transaction but one is open. -/
structure Tables.Alone (t : Tables) (o : Owner) (db : Db) (d : Dicts) : Prop where
  contracts : t.contracts.Alone o db.dicts.contracts d.contracts
  functions : t.functions.Alone o db.dicts.functions d.functions
  argAddresses : t.argAddresses.Alone o db.dicts.argAddresses d.argAddresses
  transactions : t.transactions = db.transactions
  checkpoints : t.checkpoints = db.checkpoints

theorem Tables.alone_ofDb (db : Db) (o : Owner) : (Tables.ofDb db).Alone o db db.dicts :=
  ⟨Shared.alone_ofDict _ o, Shared.alone_ofDict _ o, Shared.alone_ofDict _ o, rfl, rfl⟩

theorem Tables.Alone.seen {t : Tables} {o : Owner} {db : Db} {d : Dicts} (h : t.Alone o db d) : t.seen o = d := by
  rw [Tables.seen, h.contracts.seen, h.functions.seen, h.argAddresses.seen]

theorem Tables.Alone.abort {t : Tables} {o : Owner} {db : Db} {d : Dicts} (h : t.Alone o db d) (st : Store) (e : SaveError) :
    (t.abort o).db = (rolledBack st db d e).db := by
  show (⟨⟨(t.contracts.abort o).committed, (t.functions.abort o).committed, (t.argAddresses.abort o).committed⟩,
    t.transactions, t.checkpoints⟩ : Db) = _
  rw [h.contracts.abort, h.functions.abort, h.argAddresses.abort, h.transactions, h.checkpoints]
  rfl

section

variable {acceptsTime : Time → Bool}

/-! ## From point to point -/

/-- The arguments of a call, and the number it has. -/
structure Request where
  i : Nat
  ledgerSeq : BitVec 32
  rows : List InvocationRow
  order : Call

/-- The call at a point. -/
def Request.at (q : Request) (phase : Phase) : Session := ⟨q.ledgerSeq, q.rows, q.order, phase⟩

/-- A process with the one call at a point. -/
def Request.state (q : Request) (st : Store) (t : Tables) (phase : Phase) : State :=
  ⟨st, t, Function.update (fun _ => none) q.i (some (q.at phase))⟩

/-- Events of the call lead from one state to another. -/
def Request.Leads (acceptsTime : Time → Bool) (q : Request) (w w' : State) : Prop :=
  ∃ es, (∀ e ∈ es, e = .next q.i ∨ e = .breaks q.i) ∧ run (step acceptsTime) w es = some w'

theorem Request.Leads.refl (q : Request) (w : State) : q.Leads acceptsTime w w := ⟨[], by simp, rfl⟩

theorem Request.Leads.trans {q : Request} {w w' w'' : State} (h : q.Leads acceptsTime w w') (h' : q.Leads acceptsTime w' w'') :
    q.Leads acceptsTime w w'' := by
  obtain ⟨es, hes, hrun⟩ := h
  obtain ⟨es', hes', hrun'⟩ := h'
  refine ⟨es ++ es', fun e he => (List.mem_append.mp he).elim (hes e) (hes' e), ?_⟩
  rw [run_append, hrun, Option.bind_some, hrun']

@[simp] theorem Request.state_session (q : Request) (st : Store) (t : Tables) (phase : Phase) :
    (q.state st t phase).sessions q.i = some (q.at phase) := by
  simp [Request.state]

theorem Request.moved_state (q : Request) (st : Store) (t : Tables) (phase : Phase) (a : Advance) :
    (q.state st t phase).moved q.i (q.at phase) a = q.state a.store a.tables a.phase := by
  simp only [State.moved, Request.state, Function.update_idem]
  rfl

theorem Request.leads_of_step {q : Request} {w w' : State} {e : Event} (he : e = .next q.i ∨ e = .breaks q.i)
    (h : step acceptsTime w e = some w') : q.Leads acceptsTime w w' :=
  ⟨[e], by simpa using he, by rw [run_cons_of_step h, run_nil]⟩

theorem Request.leads_next {q : Request} {st st' : Store} {t t' : Tables} {phase phase' : Phase}
    (h : (q.at phase).advance acceptsTime (.call q.i) st t = some ⟨st', t', phase'⟩) :
    q.Leads acceptsTime (q.state st t phase) (q.state st' t' phase') := by
  refine leads_of_step (Or.inl rfl) ?_
  show ((q.state st t phase).sessions q.i).bind _ = _
  rw [q.state_session, Option.bind_some]
  show ((q.at phase).advance acceptsTime (.call q.i) st t).map _ = _
  rw [h, Option.map_some, q.moved_state]

theorem Request.leads_breaks {q : Request} {st : Store} {t : Tables} {phase : Phase} {stage : Stage}
    (h : phase.stage = some stage) :
    q.Leads acceptsTime (q.state st t phase) (q.state st (t.abort (.call q.i)) (.returned (some (.database stage)))) := by
  refine leads_of_step (Or.inr rfl) ?_
  show ((q.state st t phase).sessions q.i).bind _ = _
  rw [q.state_session, Option.bind_some]
  show phase.stage.map _ = _
  rw [h, Option.map_some, q.moved_state]
  rfl

/-! ## Resolving -/

/-- What a statement leaves: the next point, or the end with an error. -/
def Request.after (q : Request) (st : Store) (t : Tables) (phase : Phase) : Option SaveError → State
  | none => q.state st t phase
  | some e => q.state st (t.abort (.call q.i)) (.returned (some e))

/-- The points of an insert statement: how it proposes a row, and when it does not. `Ok` says which dictionary the tables hold. -/
structure Proposals (acceptsTime : Time → Bool) (q : Request) (st : Store) {κ : Type} [DecidableEq κ] (stage : Stage) (limit : Nat)
    (phase : List κ → Phase) (Ok : Tables → Dict κ → Prop) : Prop where
  stage_eq : ∀ todo, (phase todo).stage = some stage
  next : ∀ t d k todo, Ok t d → d.last < limit → ∃ t', Ok t' (d.propose k) ∧
    q.Leads acceptsTime (q.state st t (phase (k :: todo))) (q.state st t' (phase todo))
  full : ∀ t d k todo, Ok t d → ¬d.last < limit →
    q.Leads acceptsTime (q.state st t (phase (k :: todo))) (q.after st t (phase todo) (some (.noId stage)))

section

variable {q : Request} {st : Store} {κ : Type} [DecidableEq κ] {stage : Stage} {limit : Nat} {phase : List κ → Phase}
  {Ok : Tables → Dict κ → Prop}

/-- Row by row, the statement is `Dict.insertAll`. -/
theorem Proposals.insertAll (h : Proposals acceptsTime q st stage limit phase Ok) (rest : List κ) :
    ∀ (ks : List κ) (t : Tables) (d : Dict κ), Ok t d → ∃ t', Ok t' (Dict.insertAll limit d ks).1 ∧
      q.Leads acceptsTime (q.state st t (phase (ks ++ rest)))
        (q.after st t' (phase rest) (if (Dict.insertAll limit d ks).2 then none else some (.noId stage)))
  | [], t, d, hok => ⟨t, hok, Request.Leads.refl q _⟩
  | k :: ks, t, d, hok => by
    by_cases hroom : d.last < limit
    · obtain ⟨t', hok', hleads⟩ := h.next t d k (ks ++ rest) hok hroom
      obtain ⟨t'', hok'', hleads'⟩ := Proposals.insertAll h rest ks t' (d.propose k) hok'
      rw [Dict.insertAll, if_pos hroom]
      exact ⟨t'', hok'', hleads.trans hleads'⟩
    · rw [Dict.insertAll, if_neg hroom]
      exact ⟨t, hok, h.full t d k (ks ++ rest) hok hroom⟩

/-- The statement is `proposeKeys`, with the break where the call has it. -/
theorem Proposals.proposeKeys (h : Proposals acceptsTime q st stage limit phase Ok) (keys : List κ) {t : Tables} {d : Dict κ}
    (hok : Ok t d) : ∃ t', Ok t' (proposeKeys q.order stage limit d keys).1 ∧
      q.Leads acceptsTime (q.state st t (phase keys))
        (q.after st t' (phase []) (proposeKeys q.order stage limit d keys).2) := by
  cases hbreaks : q.order.breaks stage with
  | none =>
    obtain ⟨t', hok', hleads⟩ := h.insertAll [] keys t d hok
    rw [List.append_nil] at hleads
    refine ⟨t', ?_, ?_⟩ <;> unfold Soroscan.proposeKeys proposedKeys <;> rw [hbreaks] <;> simp only [Option.isSome_none]
    · split <;> rename_i heq <;> rw [heq] at hok' <;> exact hok'
    · split <;> rename_i heq <;> rw [heq] at hleads <;> exact hleads
  | some n =>
    obtain ⟨t', hok', hleads⟩ := h.insertAll (keys.drop n) (keys.take n) t d hok
    rw [List.take_append_drop] at hleads
    refine ⟨t', ?_, ?_⟩ <;> unfold Soroscan.proposeKeys proposedKeys <;> rw [hbreaks] <;> simp only [Option.isSome_some]
    · split <;> rename_i heq <;> rw [heq] at hok' <;> exact hok'
    · split <;> rename_i heq <;> rw [heq] at hleads
      · exact hleads
      · exact hleads.trans (Request.leads_breaks (h.stage_eq _))

end

section

variable {q : Request} {st : Store} {db : Db}

theorem proposals_contracts (l : Locals) (functions : Dict Bytes) (argAddresses : Dict Text) :
    Proposals acceptsTime q st .contracts smallserialMax (.resolveContracts l)
      fun t d => t.Alone (.call q.i) db ⟨d, functions, argAddresses⟩ where
  stage_eq _ := rfl
  next t d k todo hok hroom := by
    obtain ⟨contracts, hc, halone⟩ := hok.contracts.propose k
    refine ⟨{ t with contracts }, ⟨halone, hok.functions, hok.argAddresses, hok.transactions, hok.checkpoints⟩, ?_⟩
    refine Request.leads_next ?_
    show (if t.contracts.all.last < smallserialMax then _ else _) = _
    rw [hok.contracts.all, if_pos hroom, Tables.proposeContract, hc]
    rfl
  full t d k todo hok hroom := by
    refine Request.leads_next ?_
    show (if t.contracts.all.last < smallserialMax then _ else _) = _
    rw [hok.contracts.all, if_neg hroom]
    rfl

theorem proposals_functions (l : Locals) (contracts : Dict Bytes32) (argAddresses : Dict Text) :
    Proposals acceptsTime q st .functions smallserialMax (.resolveFunctions l)
      fun t d => t.Alone (.call q.i) db ⟨contracts, d, argAddresses⟩ where
  stage_eq _ := rfl
  next t d k todo hok hroom := by
    obtain ⟨functions, hf, halone⟩ := hok.functions.propose k
    refine ⟨{ t with functions }, ⟨hok.contracts, halone, hok.argAddresses, hok.transactions, hok.checkpoints⟩, ?_⟩
    refine Request.leads_next ?_
    show (if t.functions.all.last < smallserialMax then _ else _) = _
    rw [hok.functions.all, if_pos hroom, Tables.proposeFunction, hf]
    rfl
  full t d k todo hok hroom := by
    refine Request.leads_next ?_
    show (if t.functions.all.last < smallserialMax then _ else _) = _
    rw [hok.functions.all, if_neg hroom]
    rfl

theorem proposals_addresses (l : Locals) (contracts : Dict Bytes32) (functions : Dict Bytes) :
    Proposals acceptsTime q st .addresses serialMax (.resolveAddresses l)
      fun t d => t.Alone (.call q.i) db ⟨contracts, functions, d⟩ where
  stage_eq _ := rfl
  next t d k todo hok hroom := by
    obtain ⟨argAddresses, ha, halone⟩ := hok.argAddresses.propose k
    refine ⟨{ t with argAddresses }, ⟨hok.contracts, hok.functions, halone, hok.transactions, hok.checkpoints⟩, ?_⟩
    refine Request.leads_next ?_
    show (if t.argAddresses.all.last < serialMax then _ else _) = _
    rw [hok.argAddresses.all, if_pos hroom, Tables.proposeAddress, ha]
    rfl
  full t d k todo hok hroom := by
    refine Request.leads_next ?_
    show (if t.argAddresses.all.last < serialMax then _ else _) = _
    rw [hok.argAddresses.all, if_neg hroom]
    rfl

/-- The variables of a call that has found no id yet. -/
def unresolved (st : Store) (ps : List PreparedRow) : Locals := ⟨ps, st, Store.new⟩

/-- The variables of a call once its ids are read from some dictionaries. -/
def resolved (q : Request) (st : Store) (d : Dicts) (ps : List PreparedRow) : Locals :=
  ⟨ps, st, resolvedContracts d.contracts (missingContracts st q.order ps),
    resolvedKeys d.functions (missingFunctions st q.order ps),
    resolvedKeys d.argAddresses (missingAddresses st q.order ps)⟩

/-- From the first insert statement to the batch, a call does what `resolveAll` says. -/
theorem leads_resolveAll {ps : List PreparedRow} {t : Tables} (h : t.Alone (.call q.i) db db.dicts) :
    ∃ t', t'.Alone (.call q.i) db (resolveAll st q.order db.dicts ps).1 ∧
      q.Leads acceptsTime
        (q.state st t (.resolveContracts (unresolved st ps) ((missingContracts st q.order ps).map (·.2))))
        (q.after st t' (.batch (resolved q st (resolveAll st q.order db.dicts ps).1 ps))
          (resolveAll st q.order db.dicts ps).2) := by
  obtain ⟨t₁, halone₁, hleads₁⟩ := (@proposals_contracts acceptsTime q st db (unresolved st ps)
    db.dicts.functions db.dicts.argAddresses).proposeKeys ((missingContracts st q.order ps).map (·.2)) h
  unfold resolveAll
  split <;> rename_i contracts hc <;> rw [hc] at halone₁ hleads₁
  · exact ⟨t₁, halone₁, hleads₁⟩
  set l₁ : Locals := ⟨ps, st, { Store.new with contracts := resolvedContracts contracts (missingContracts st q.order ps) }⟩ with hl₁
  have hread₁ : (q.at (.resolveContracts (unresolved st ps) [])).advance acceptsTime (.call q.i) st t₁ =
      if (missingFunctions st q.order ps).all acceptsText then
        some ⟨st, t₁, .resolveFunctions l₁ (missingFunctions st q.order ps)⟩
      else some (.failed st t₁ (.call q.i) (.rejected .functions)) := by
    simp only [Session.advance, Request.at, halone₁.seen]
    rfl
  split_ifs with hnames
  swap
  · rw [if_neg hnames] at hread₁
    exact ⟨t₁, halone₁, hleads₁.trans (Request.leads_next hread₁)⟩
  rw [if_pos hnames] at hread₁
  obtain ⟨t₂, halone₂, hleads₂⟩ := (@proposals_functions acceptsTime q st db l₁ contracts db.dicts.argAddresses).proposeKeys
    (missingFunctions st q.order ps) halone₁
  have hleads₂ := hleads₁.trans ((Request.leads_next hread₁).trans hleads₂)
  split <;> rename_i functions hf <;> rw [hf] at halone₂ hleads₂
  · exact ⟨t₂, halone₂, hleads₂⟩
  set l₂ : Locals := { l₁ with found := { l₁.found with
    functions := resolvedKeys functions (missingFunctions st q.order ps) } } with hl₂
  have hread₂ : (q.at (.resolveFunctions l₁ [])).advance acceptsTime (.call q.i) st t₂ =
      some ⟨st, t₂, .resolveAddresses l₂ (missingAddresses st q.order ps)⟩ := by
    simp only [Session.advance, Request.at, halone₂.seen]
    rfl
  obtain ⟨t₃, halone₃, hleads₃⟩ := (@proposals_addresses acceptsTime q st db l₂ contracts functions).proposeKeys
    (missingAddresses st q.order ps) halone₂
  have hleads₃ := hleads₂.trans ((Request.leads_next hread₂).trans hleads₃)
  split
  rename_i argAddresses e ha
  rw [ha] at halone₃ hleads₃
  cases e with
  | some e => exact ⟨t₃, halone₃, hleads₃⟩
  | none =>
    have hread₃ : (q.at (.resolveAddresses l₂ [])).advance acceptsTime (.call q.i) st t₃ =
        some ⟨st, t₃, .batch (resolved q st ⟨contracts, functions, argAddresses⟩ ps)⟩ := by
      simp only [Session.advance, Request.at, halone₃.seen]
      rfl
    exact ⟨t₃, halone₃, hleads₃.trans (Request.leads_next hread₃)⟩

/-! ## The whole call -/

/-- From the batch on, a call does what `commitBatch` says. -/
theorem leads_commitBatch {ps : List PreparedRow} {d : Dicts} {t : Tables} (h : t.Alone (.call q.i) db d) :
    ∃ t', t'.db = (commitBatch acceptsTime st db q.order q.ledgerSeq d ps).db ∧
      q.Leads acceptsTime (q.state st t (.batch (resolved q st d ps)))
        (q.state (commitBatch acceptsTime st db q.order q.ledgerSeq d ps).store t'
          (.returned (commitBatch acceptsTime st db q.order q.ledgerSeq d ps).error)) := by
  have hadvance : ∀ rows, ps.mapM (txRow acceptsTime (st.merged q.order d ps)) = rows →
      (q.at (.batch (resolved q st d ps))).advance acceptsTime (.call q.i) st t =
        rows.elim (some (.failed st t (.call q.i) (.rejected .batch)))
          fun written => some ⟨st, t, .commit (resolved q st d ps) written⟩ := by
    intro rows hrows
    have hids : (resolved q st d ps).ps.mapM (txRow acceptsTime (resolved q st d ps).ids) = rows := hrows
    simp only [Session.advance, Request.at, hids]
    cases rows <;> rfl
  unfold commitBatch
  split <;> rename_i hrows
  · exact ⟨t.abort (.call q.i), h.abort st _, Request.leads_next (hadvance none hrows)⟩
  · rename_i written
    have hbatch := Request.leads_next (hadvance (some written) hrows)
    split_ifs with hbatchBreaks hcommitBreaks
    · exact ⟨t.abort (.call q.i), h.abort st _, Request.leads_breaks rfl⟩
    · exact ⟨t.abort (.call q.i), h.abort st _, hbatch.trans (Request.leads_breaks rfl)⟩
    · set t' : Tables := { t.commit (.call q.i) with transactions := written.foldl insertRow t.transactions,
                                                      checkpoints := advanceWorker t.checkpoints q.ledgerSeq }
      have hcommit : q.Leads acceptsTime (q.state st t (.commit (resolved q st d ps) written))
          (q.state st t' (.merge (resolved q st d ps))) := Request.leads_next rfl
      have hmerge : q.Leads acceptsTime (q.state st t' (.merge (resolved q st d ps)))
          (q.state (st.merged q.order d ps) t' (.returned none)) := Request.leads_next rfl
      refine ⟨t', ?_, hbatch.trans (hcommit.trans hmerge)⟩
      show (⟨⟨(t.contracts.commit _).committed, (t.functions.commit _).committed, (t.argAddresses.commit _).committed⟩,
        written.foldl insertRow t.transactions, advanceWorker t.checkpoints q.ledgerSeq⟩ : Db) = _
      rw [h.contracts.commit, h.functions.commit, h.argAddresses.commit, h.transactions, h.checkpoints]

theorem Tables.db_ofDb (db : Db) : (Tables.ofDb db).db = db := by
  show (⟨⟨(Shared.ofDict _).committed, (Shared.ofDict _).committed, (Shared.ofDict _).committed⟩, _, _⟩ : Db) = db
  rw [Shared.committed_ofDict, Shared.committed_ofDict, Shared.committed_ofDict]
  rfl

theorem Tables.abort_ofDb (db : Db) (o : Owner) : (Tables.ofDb db).abort o = Tables.ofDb db := by
  simp only [Tables.abort, Tables.ofDb, Shared.abort_ofDict]

/-- A call that no one comes in between leaves the caches, the database and the error that `saveLedger` says. -/
theorem saveLedger_alone (acceptsTime : Time → Bool) (q : Request) (st : Store) (db : Db) :
    ∃ t', t'.db = (saveLedger acceptsTime st db q.order q.ledgerSeq q.rows).db ∧
      q.Leads acceptsTime (q.state st (Tables.ofDb db) .called)
        (q.state (saveLedger acceptsTime st db q.order q.ledgerSeq q.rows).store t'
          (.returned (saveLedger acceptsTime st db q.order q.ledgerSeq q.rows).error)) := by
  have halone := Tables.alone_ofDb db (.call q.i)
  unfold saveLedger
  split <;> rename_i hprepare
  · rename_i e
    refine ⟨Tables.ofDb db, Tables.db_ofDb db, Request.leads_next ?_⟩
    simp only [Session.advance, Request.at, hprepare]
  rename_i ps
  -- the rows are read and the three snapshots taken
  have hprepared : q.Leads acceptsTime (q.state st (Tables.ofDb db) .called)
      (q.state st (Tables.ofDb db) (.snapshotContracts ⟨ps, Store.new, Store.new⟩)) :=
    Request.leads_next (by simp only [Session.advance, Request.at, hprepare])
  have hsnapshots : q.Leads acceptsTime (q.state st (Tables.ofDb db) (.snapshotContracts ⟨ps, Store.new, Store.new⟩))
      (q.state st (Tables.ofDb db) (.begin (unresolved st ps))) :=
    (Request.leads_next rfl).trans ((Request.leads_next rfl).trans (Request.leads_next rfl))
  have hbegun := hprepared.trans hsnapshots
  split_ifs with hstart
  · refine ⟨(Tables.ofDb db).abort (.call q.i), ?_, hbegun.trans (Request.leads_breaks rfl)⟩
    rw [Tables.abort_ofDb, Tables.db_ofDb]
  have hbegin : q.Leads acceptsTime (q.state st (Tables.ofDb db) (.begin (unresolved st ps)))
      (q.state st (Tables.ofDb db)
        (.resolveContracts (unresolved st ps) ((missingContracts st q.order ps).map (·.2)))) := Request.leads_next rfl
  obtain ⟨t', halone', hresolve⟩ := @leads_resolveAll acceptsTime q st db ps _ halone
  have hresolved := hbegun.trans (hbegin.trans hresolve)
  split <;> rename_i d hd <;> rw [hd] at halone' hresolved
  · exact ⟨t'.abort (.call q.i), halone'.abort st _, hresolved⟩
  · obtain ⟨t'', hdb, hbatch⟩ := @leads_commitBatch acceptsTime q st db ps d t' halone'
    exact ⟨t'', hdb, hresolved.trans hbatch⟩

end

end

end Sessions

end Soroscan

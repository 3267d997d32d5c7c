import Soroscan.Lemmas.Diagnostics

/-!
# The walk keeps every item

The calls and the raised events of a stream are its items. Whatever the order of the events, the walk holds every item that it
has walked over exactly once, in the tree or in the list beside it, until an item is past its cap.
-/

namespace Soroscan

/-! ## The items of a stream and of a tree -/

/-- What an event adds to the tree: a raised event, or a call that is just opened. -/
def itemOf (e : ContractEvent) (seq : Nat) : Option Shown :=
  match e.body with
  | .other _ => none
  | .v0 topics data =>
    if e.type = .contract then (eventOf e seq).map Shown.event
    else if labelOf topics = some fnCallLabel then some (.call (nodeOf topics data seq))
    else none

/-- The kind of the item that an event adds. -/
def kindOf (e : ContractEvent) : Option ItemKind :=
  match e.body with
  | .other _ => none
  | .v0 topics _ =>
    if e.type = .contract then some .event else if labelOf topics = some fnCallLabel then some .call else none

/-- The kinds of the items of a stream. -/
def streamKinds (stream : List ContractEvent) : List ItemKind := stream.filterMap kindOf

/-- The items of a stream, numbered. -/
def streamItems (seq : Nat) : List ContractEvent → List Shown
  | [] => []
  | e :: es =>
    match itemOf e seq with
    | none => streamItems seq es
    | some x => x :: streamItems (seq + 1) es

/-- A call without its result and without what happened inside it. -/
def TraceCall.bare (call : TraceCall) : TraceCall := { call with result := none, events := [], calls := [] }

mutual

/-- A call, and what happened inside it. -/
def TraceCall.items : TraceCall → List Shown
  | ⟨contract, fn, args, _, events, calls, seq⟩ =>
    .call ⟨contract, fn, args, none, [], [], seq⟩ :: (events.map Shown.event ++ itemsOfCalls calls)

/-- The items of a tree of calls. -/
def itemsOfCalls : List TraceCall → List Shown
  | [] => []
  | call :: calls => call.items ++ itemsOfCalls calls

end

theorem TraceCall.items_eq (call : TraceCall) :
    call.items = .call call.bare :: (call.events.map Shown.event ++ itemsOfCalls call.calls) := by
  cases call
  rw [TraceCall.items]
  rfl

theorem itemsOfCalls_append (xs ys : List TraceCall) : itemsOfCalls (xs ++ ys) = itemsOfCalls xs ++ itemsOfCalls ys := by
  induction xs with
  | nil => rfl
  | cons x xs ih => rw [List.cons_append, itemsOfCalls, itemsOfCalls, ih, List.append_assoc]

/-- What the tree and the list of the events without a call hold. -/
def itemsShown (calls : List TraceCall) (events : List TraceEvent) : List Shown :=
  itemsOfCalls calls ++ events.map Shown.event

/-! ## The walk keeps every item -/

namespace Walk

/-- What the walk holds. -/
def items (w : Walk) : List Shown := itemsShown w.calls w.events ++ itemsOfCalls w.stack

/-- The events of a frame are among its items. -/
theorem items_pushFrameEvent (frame : TraceCall) (e : TraceEvent) :
    (TraceCall.items { frame with events := frame.events ++ [e] }).Perm (frame.items ++ [.event e]) := by
  rw [TraceCall.items_eq, TraceCall.items_eq, List.cons_append]
  refine List.Perm.cons _ ?_
  simp only [List.map_append, List.append_assoc, List.map_cons, List.map_nil]
  exact List.Perm.append_left _ List.perm_append_comm

theorem items_pushFrameCall (frame call : TraceCall) :
    (TraceCall.items { frame with calls := frame.calls ++ [call] }).Perm (frame.items ++ call.items) := by
  rw [TraceCall.items_eq, TraceCall.items_eq, List.cons_append]
  refine List.Perm.cons _ ?_
  simp only [itemsOfCalls_append, itemsOfCalls, List.append_nil, List.append_assoc]
  exact List.Perm.refl _

/-- An event that is put where the walk stands is one more item. -/
theorem items_pushEvent (w : Walk) (e : TraceEvent) : (w.pushEvent e).items.Perm (w.items ++ [.event e]) := by
  obtain ⟨calls, events, metrics, stack, nodes, raised, seq⟩ := w
  cases stack with
  | nil =>
    simp only [pushEvent, items, itemsShown, itemsOfCalls, List.map_append, List.append_assoc, List.append_nil]
    exact List.Perm.refl _
  | cons frame callers =>
    simp only [pushEvent, items, itemsOfCalls, List.append_assoc]
    refine List.Perm.append_left _ ?_
    refine ((items_pushFrameEvent frame e).append_right _).trans ?_
    rw [List.append_assoc]
    exact List.Perm.append_left _ List.perm_append_comm

/-- A call that is put where the walk stands brings its items. -/
theorem items_pushCall (w : Walk) (call : TraceCall) : (w.pushCall call).items.Perm (w.items ++ call.items) := by
  obtain ⟨calls, events, metrics, stack, nodes, raised, seq⟩ := w
  cases stack with
  | nil =>
    simp only [pushCall, items, itemsShown, itemsOfCalls, itemsOfCalls_append, List.append_assoc, List.append_nil]
    exact List.Perm.append_left _ List.perm_append_comm
  | cons frame callers =>
    simp only [pushCall, items, itemsOfCalls, List.append_assoc]
    refine List.Perm.append_left _ ?_
    refine ((items_pushFrameCall frame call).append_right _).trans ?_
    rw [List.append_assoc]
    exact List.Perm.append_left _ List.perm_append_comm

/-- A frame that returns stays with all its items. -/
theorem items_closeFrame (w : Walk) (result : Option ScDisplay) : (w.closeFrame result).items.Perm w.items := by
  obtain ⟨calls, events, metrics, stack, nodes, raised, seq⟩ := w
  cases stack with
  | nil => exact List.Perm.refl _
  | cons frame callers =>
    refine (items_pushCall _ _).trans ?_
    have hframe : TraceCall.items { frame with result } = frame.items := by
      rw [TraceCall.items_eq, TraceCall.items_eq]
      rfl
    simp only [items, hframe, itemsOfCalls, List.append_assoc]
    exact List.Perm.append_left _ List.perm_append_comm

/-- The items of the open frames are those of the tree they make. -/
theorem items_nest (stack inner : List TraceCall) :
    (itemsOfCalls (stack.foldl (fun inner frame => [{ frame with calls := frame.calls ++ inner }]) inner)).Perm
      (itemsOfCalls inner ++ itemsOfCalls stack) := by
  induction stack generalizing inner with
  | nil =>
    rw [itemsOfCalls, List.append_nil]
    exact List.Perm.refl _
  | cons frame callers ih =>
    refine (ih _).trans ?_
    rw [itemsOfCalls, itemsOfCalls, itemsOfCalls, List.append_nil, ← List.append_assoc]
    refine List.Perm.append_right _ ?_
    rw [TraceCall.items_eq, TraceCall.items_eq]
    simp only [itemsOfCalls_append, ← List.append_assoc]
    refine List.Perm.trans ?_ List.perm_append_comm
    exact List.Perm.refl _

theorem items_result (w : Walk) (truncated : Bool) :
    (itemsShown (w.result truncated).calls (w.result truncated).events).Perm w.items := by
  have hnest := items_nest w.stack []
  simp only [itemsShown, result, itemsOfCalls_append, items, List.append_assoc]
  refine List.Perm.append_left _ ?_
  exact (List.perm_append_comm).trans (List.Perm.append_left _ hnest)

end Walk

/-! ## One event -/

/-- An event whose counter is kept: one that has a name and a value to show. -/
def setsMetric (e : ContractEvent) : Bool :=
  match e.body with
  | .other _ => false
  | .v0 topics data =>
    decide (e.type ≠ .contract) && decide (labelOf topics = some coreMetricsLabel) && !(metricsWith [] topics data).isEmpty

theorem setMetric_eq_nil {metrics : List (JsString × JsString)} {name value : JsString} :
    setMetric metrics name value = [] ↔ metrics = [] ∧ setMetric [] name value = [] := by
  by_cases hname : name = protoName
  · simp only [setMetric, if_pos hname, and_true]
  · have hempty : setMetric [] name value ≠ [] := by
      rw [setMetric, if_neg hname]
      exact List.cons_ne_nil _ _
    have hset : setMetric metrics name value ≠ [] := by
      rw [setMetric, if_neg hname]
      split_ifs with hany
      · obtain ⟨m, hm, -⟩ := List.any_eq_true.mp hany
        exact List.map_eq_nil_iff.not.mpr (List.ne_nil_of_mem hm)
      · exact List.append_ne_nil_of_right_ne_nil _ (List.cons_ne_nil _ _)
    exact iff_of_false hset fun h => hempty h.2

/-- Counters are only added. -/
theorem metricsWith_eq_nil {metrics : List (JsString × JsString)} {topics : List ScVal} {data : ScVal} :
    metricsWith metrics topics data = [] ↔ metrics = [] ∧ metricsWith [] topics data = [] := by
  unfold metricsWith
  split
  · exact setMetric_eq_nil
  · simp

/-- The kind of a shown item. -/
def Shown.kind : Shown → ItemKind
  | .event _ => .event
  | .call _ => .call

theorem kind_itemOf (e : ContractEvent) (seq : Nat) : (itemOf e seq).map Shown.kind = kindOf e := by
  unfold itemOf kindOf eventOf
  cases hbody : e.body with
  | other v => rfl
  | v0 topics data =>
    simp only
    split_ifs <;> rfl

theorem kinds_itemOf (e : ContractEvent) (seq : Nat) : (itemOf e seq).toList.map Shown.kind = (kindOf e).toList := by
  rw [← kind_itemOf e seq]
  cases itemOf e seq <;> rfl

theorem closeFrame_counts (w : Walk) (result : Option ScDisplay) :
    (w.closeFrame result).seq = w.seq ∧ (w.closeFrame result).taken = w.taken ∧ (w.closeFrame result).metrics = w.metrics := by
  obtain ⟨calls, events, metrics, stack, nodes, raised, seq⟩ := w
  rcases stack with _ | ⟨frame, _ | ⟨caller, callers⟩⟩
  · exact ⟨rfl, rfl, rfl⟩
  · exact ⟨rfl, funext fun k => by cases k <;> rfl, rfl⟩
  · exact ⟨rfl, funext fun k => by cases k <;> rfl, rfl⟩

theorem pushEvent_counts (w : Walk) (e : TraceEvent) :
    (w.pushEvent e).nodes = w.nodes ∧ (w.pushEvent e).metrics = w.metrics := by
  obtain ⟨calls, events, metrics, stack, nodes, raised, seq⟩ := w
  cases stack <;> exact ⟨rfl, rfl⟩

/-- What the action that an event asks for says about its item. -/
theorem actionOf_spec (e : ContractEvent) :
    match actionOf e with
    | .skip => kindOf e = none ∧ setsMetric e = false
    | .count topics data => kindOf e = none ∧ (setsMetric e = false ↔ metricsWith [] topics data = [])
    | .raise event => kindOf e = some .event ∧ setsMetric e = false ∧ ∀ seq, itemOf e seq = some (.event (event seq))
    | .enter node => kindOf e = some .call ∧ setsMetric e = false ∧
        ∀ seq, itemOf e seq = some (.call (node seq)) ∧ (node seq).items = [.call (node seq)]
    | .leave _ => kindOf e = none ∧ setsMetric e = false := by
  have hlabels : fnCallLabel ≠ coreMetricsLabel := by decide
  unfold actionOf kindOf setsMetric itemOf eventOf
  cases hbody : e.body with
  | other v => exact ⟨rfl, rfl⟩
  | v0 topics data =>
    by_cases htype : e.type = .contract
    · simp [htype]
    · by_cases hmetrics : labelOf topics = some coreMetricsLabel
      · simp [htype, hmetrics, hlabels.symm]
      · by_cases hcall : labelOf topics = some fnCallLabel
        · simp [htype, hcall, hlabels, nodeOf, TraceCall.items, itemsOfCalls]
        · by_cases hreturn : labelOf topics = some fnReturnLabel
          · simp [htype, hreturn, show fnReturnLabel ≠ coreMetricsLabel by decide, show fnReturnLabel ≠ fnCallLabel by decide]
          · simp [htype, hmetrics, hcall, hreturn]

/-- What a round of the walk that goes on has done with its event. -/
structure Took (w : Walk) (e : ContractEvent) (w' : Walk) : Prop where
  room : ∀ k, kindOf e = some k → w.taken k < maxItems
  items : w'.items.Perm (w.items ++ (itemOf e w.seq).toList)
  seq : w'.seq = w.seq + (kindOf e).toList.length
  taken : w'.taken = fun k => w.taken k + (kindOf e).toList.count k
  metrics : w'.metrics = [] ↔ w.metrics = [] ∧ setsMetric e = false

/-- A round that only changes what is no item. -/
theorem Took.of_none {w w' : Walk} {e : ContractEvent} (hkind : kindOf e = none) (hitems : w'.items.Perm w.items)
    (hseq : w'.seq = w.seq) (htaken : w'.taken = w.taken) (hmetrics : w'.metrics = [] ↔ w.metrics = [] ∧ setsMetric e = false) :
    Took w e w' := by
  have hitem : itemOf e w.seq = none := by
    rw [← Option.map_eq_none_iff, kind_itemOf, hkind]
  refine { room := fun k h => ?_, items := ?_, seq := ?_, taken := ?_, metrics := hmetrics }
  · rw [hkind] at h
    cases h
  · rw [hitem, Option.toList_none, List.append_nil]
    exact hitems
  · rw [hkind, hseq]
    rfl
  · rw [hkind, htaken]
    rfl

/-- A round that goes on stays within the caps. -/
theorem Took.count_le {w w' : Walk} {e : ContractEvent} (h : Took w e w') {k : ItemKind} (hk : w.taken k ≤ maxItems) :
    w.taken k + (kindOf e).toList.count k ≤ maxItems := by
  cases hkind : kindOf e with
  | none => exact hk
  | some l =>
    have hroom := h.room l hkind
    rw [Option.toList_some]
    by_cases hlk : l = k
    · subst hlk
      rw [List.count_singleton_self]
      exact hroom
    · rw [List.count_cons_of_ne hlk, List.count_nil]
      exact hk

/-- A round of the walk ends it at an item past its cap, or takes the event. -/
theorem walkEvent_cases (w : Walk) (e : ContractEvent) :
    (∃ k, kindOf e = some k ∧ maxItems ≤ w.taken k ∧ walkEvent w e = .error w) ∨
      ∃ w', walkEvent w e = .ok w' ∧ Took w e w' := by
  have hspec := actionOf_spec e
  rw [walkEvent_eq]
  cases haction : actionOf e with
  | skip =>
    rw [haction] at hspec
    exact Or.inr ⟨w, rfl, .of_none hspec.1 (List.Perm.refl _) rfl rfl (by rw [hspec.2, eq_self_iff_true, and_true])⟩
  | count topics data =>
    rw [haction] at hspec
    refine Or.inr ⟨_, rfl, .of_none hspec.1 (List.Perm.refl _) rfl rfl ?_⟩
    rw [hspec.2]
    exact metricsWith_eq_nil
  | leave result =>
    rw [haction] at hspec
    obtain ⟨hseq, htaken, hmetrics⟩ := closeFrame_counts w result
    refine Or.inr ⟨_, rfl, .of_none hspec.1 (w.items_closeFrame result) hseq htaken ?_⟩
    rw [hspec.2, hmetrics, eq_self_iff_true, and_true]
  | raise event =>
    rw [haction] at hspec
    obtain ⟨hkind, hsets, hitem⟩ := hspec
    obtain ⟨hnodes, hmetrics⟩ := pushEvent_counts w (event w.seq)
    rw [Walk.act]
    by_cases hcap : maxItems ≤ w.raised
    · exact Or.inl ⟨.event, hkind, hcap, if_pos hcap⟩
    · refine Or.inr ⟨_, if_neg hcap, ⟨fun k hk => ?_, ?_, ?_, ?_, ?_⟩⟩
      · rw [hkind] at hk
        cases hk
        exact not_le.mp hcap
      · rw [hitem]
        exact w.items_pushEvent _
      · rw [hkind]
        rfl
      · rw [hkind]
        funext k
        cases k with
        | call => exact hnodes
        | event => rfl
      · rw [hsets, eq_self_iff_true, and_true]
        exact Eq.congr_left hmetrics
  | enter node =>
    rw [haction] at hspec
    obtain ⟨hkind, hsets, hnode⟩ := hspec
    obtain ⟨hitem, hitems⟩ := hnode w.seq
    rw [Walk.act]
    by_cases hcap : maxItems ≤ w.nodes
    · exact Or.inl ⟨.call, hkind, hcap, if_pos hcap⟩
    · refine Or.inr ⟨_, if_neg hcap, ⟨fun k hk => ?_, ?_, ?_, ?_, ?_⟩⟩
      · rw [hkind] at hk
        cases hk
        exact not_le.mp hcap
      · rw [hitem]
        simp only [Walk.items, itemsOfCalls, hitems, List.append_assoc]
        exact List.Perm.append_left _ List.perm_append_comm
      · rw [hkind]
        rfl
      · rw [hkind]
        funext k
        cases k <;> rfl
      · rw [hsets, eq_self_iff_true, and_true]

/-! ## The whole stream -/

theorem streamKinds_cons (e : ContractEvent) (es : List ContractEvent) :
    streamKinds (e :: es) = (kindOf e).toList ++ streamKinds es := by
  unfold streamKinds
  cases hkind : kindOf e with
  | none => rw [List.filterMap_cons_none hkind, Option.toList_none, List.nil_append]
  | some k => rw [List.filterMap_cons_some hkind, Option.toList_some, List.singleton_append]

theorem streamItems_cons (e : ContractEvent) (es : List ContractEvent) (seq : Nat) :
    streamItems seq (e :: es) = (itemOf e seq).toList ++ streamItems (seq + (kindOf e).toList.length) es := by
  rw [streamItems, ← kinds_itemOf e seq, List.length_map]
  cases itemOf e seq <;> rfl

/-- The kinds of the items of a stream are those of its events. -/
theorem kinds_streamItems (stream : List ContractEvent) (seq : Nat) :
    (streamItems seq stream).map Shown.kind = streamKinds stream := by
  induction stream generalizing seq with
  | nil => rfl
  | cons e es ih => rw [streamItems_cons, streamKinds_cons, List.map_append, ih, kinds_itemOf]

/-- Within the caps, the walk goes to the end of the stream and keeps every item. -/
theorem Walk.run_took {stream : List ContractEvent} (w : Walk)
    (hcaps : ∀ k, w.taken k + (streamKinds stream).count k ≤ maxItems) :
    ∃ w', w.run stream = .ok w' ∧ w'.items.Perm (w.items ++ streamItems w.seq stream) ∧
      (w'.metrics = [] ↔ w.metrics = [] ∧ ∀ e ∈ stream, setsMetric e = false) := by
  induction stream generalizing w with
  | nil =>
    refine ⟨w, rfl, ?_, ?_⟩
    · rw [streamItems, List.append_nil]
    · simp
  | cons e es ih =>
    have hcount : ∀ k, w.taken k + ((kindOf e).toList.count k + (streamKinds es).count k) ≤ maxItems := by
      intro k
      rw [← List.count_append, ← streamKinds_cons]
      exact hcaps k
    rcases walkEvent_cases w e with ⟨k, hkind, hfull, -⟩ | ⟨w₁, hstep, htook⟩
    · have hk := hcount k
      rw [hkind, Option.toList_some, List.count_singleton_self] at hk
      omega
    · obtain ⟨w', hrun, hitems, hmetrics⟩ := ih w₁ fun k => by
        rw [htook.taken, Nat.add_assoc]
        exact hcount k
      refine ⟨w', ?_, ?_, ?_⟩
      · rw [run_cons, hstep]
        exact hrun
      · rw [streamItems_cons, ← htook.seq, ← List.append_assoc]
        exact hitems.trans (htook.items.append_right _)
      · rw [hmetrics, htook.metrics, List.forall_mem_cons, and_assoc]

/-- Past a cap, the walk does not go to the end of the stream. -/
theorem Walk.run_stopped {stream : List ContractEvent} (w : Walk) (hw : ∀ k, w.taken k ≤ maxItems) {k : ItemKind}
    (hpast : maxItems < w.taken k + (streamKinds stream).count k) : ∃ w', w.run stream = .error w' := by
  induction stream generalizing w with
  | nil => exact absurd (hw k) (not_le.mpr hpast)
  | cons e es ih =>
    rcases walkEvent_cases w e with ⟨k, -, -, hstep⟩ | ⟨w₁, hstep, htook⟩
    · exact ⟨w, by rw [run_cons, hstep]; rfl⟩
    · rw [run_cons, hstep]
      refine ih w₁ (fun l => ?_) ?_
      · rw [htook.taken]
        exact htook.count_le (hw l)
      · rw [htook.taken, Nat.add_assoc, ← List.count_append, ← streamKinds_cons]
        exact hpast

theorem taken_start : Walk.start.taken = fun _ => 0 := funext fun k => by cases k <;> rfl

/-- Within the caps, the walk over the diagnostic events loses nothing. -/
theorem walkDiagnostics_whole {stream : List ContractEvent} (hcaps : ∀ k, (streamKinds stream).count k ≤ maxItems) :
    (walkDiagnostics stream).truncated = false ∧
      (itemsShown (walkDiagnostics stream).calls (walkDiagnostics stream).events).Perm (streamItems 0 stream) ∧
      ((walkDiagnostics stream).metrics = [] ↔ ∀ e ∈ stream, setsMetric e = false) := by
  obtain ⟨w', hrun, hitems, hmetrics⟩ := Walk.start.run_took fun k => by
    rw [taken_start, Nat.zero_add]
    exact hcaps k
  have hwalk : walkDiagnostics stream = w'.result false := by
    rw [walkDiagnostics, show stream.foldlM walkEvent Walk.start = .ok w' from hrun]
  rw [hwalk]
  refine ⟨rfl, (w'.items_result false).trans hitems, ?_⟩
  exact hmetrics.trans (and_iff_right rfl)

/-- Past a cap, the walk says so. -/
theorem walkDiagnostics_truncated {stream : List ContractEvent} {k : ItemKind} (h : maxItems < (streamKinds stream).count k) :
    (walkDiagnostics stream).truncated = true := by
  obtain ⟨w', hrun⟩ := Walk.start.run_stopped (fun k => by rw [taken_start]; exact Nat.zero_le _) (k := k) (by
    rw [taken_start, Nat.zero_add]
    exact h)
  rw [walkDiagnostics, show stream.foldlM walkEvent Walk.start = .error w' from hrun]
  rfl

/-! ## Which kinds are there -/

theorem call_mem_kinds_items {calls : List TraceCall} {events : List TraceEvent} :
    ItemKind.call ∈ (itemsShown calls events).map Shown.kind ↔ calls ≠ [] := by
  cases calls with
  | nil => simp [itemsShown, itemsOfCalls, Shown.kind]
  | cons call calls => simp [itemsShown, itemsOfCalls, TraceCall.items_eq, Shown.kind]

/-- The tree has a call if the stream has one. -/
theorem calls_eq_nil_iff {stream : List ContractEvent} (hcaps : ∀ k, (streamKinds stream).count k ≤ maxItems) :
    (walkDiagnostics stream).calls = [] ↔ ItemKind.call ∉ streamKinds stream := by
  have hitems := (walkDiagnostics_whole hcaps).2.1.map Shown.kind
  rw [kinds_streamItems] at hitems
  rw [← hitems.mem_iff, call_mem_kinds_items, not_not]

/-- The tree and the list of events are empty if the stream has no item. -/
theorem walk_empty_iff {stream : List ContractEvent} (hcaps : ∀ k, (streamKinds stream).count k ≤ maxItems) :
    ((walkDiagnostics stream).calls = [] ∧ (walkDiagnostics stream).events = []) ↔ streamKinds stream = [] := by
  have hitems := (walkDiagnostics_whole hcaps).2.1.map Shown.kind
  rw [kinds_streamItems] at hitems
  have hnil : streamKinds stream = [] ↔ itemsShown (walkDiagnostics stream).calls (walkDiagnostics stream).events = [] := by
    rw [← List.perm_nil, ← hitems.congr_left, List.perm_nil, List.map_eq_nil_iff]
  rw [hnil, itemsShown, List.append_eq_nil_iff, List.map_eq_nil_iff]
  refine and_congr_left fun _ => ?_
  cases (walkDiagnostics stream).calls with
  | nil => exact iff_of_true rfl rfl
  | cons call calls =>
    rw [itemsOfCalls, TraceCall.items_eq]
    exact iff_of_false (List.cons_ne_nil _ _) (List.cons_ne_nil _ _)

end Soroscan

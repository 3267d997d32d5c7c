import Soroscan.Lemmas.Forest

/-!
# The walk over a stream of calls

What each event of a forest does to the walk, and from it what a whole stream does: the walk puts the shown forest where it
stands, or stops at the first item past a cap with the part before it.
-/

namespace Soroscan

/-- The values of an event have bytes. -/
def ContractEvent.Sized (e : ContractEvent) : Prop :=
  ∀ topics data, e.body = .v0 topics data → (∀ topic ∈ topics, topic.Sized) ∧ data.Sized

/-- A test that the values of an event have bytes, when none has more than so many levels. -/
def ContractEvent.fitsWords (levels : Nat) (e : ContractEvent) : Bool :=
  match e.body with
  | .other _ => true
  | .v0 topics data => topics.all (ScVal.everyPart ScVal.fitsWords levels) && data.everyPart ScVal.fitsWords levels

theorem ContractEvent.forall_sized (levels : Nat) {stream : List ContractEvent}
    (h : (stream.all fun e => e.fitsWords (levels + 1)) = true) : ∀ e ∈ stream, e.Sized := by
  intro e he topics data hbody
  have hfits := List.all_eq_true.mp h e he
  rw [ContractEvent.fitsWords, hbody] at hfits
  obtain ⟨htopics, hdata⟩ := Bool.and_eq_true_iff.mp hfits
  exact ⟨fun topic htopic => ScVal.sized_of_everyPart (List.all_eq_true.mp htopics topic htopic),
    ScVal.sized_of_everyPart hdata⟩

/-- How many calls and events the walk has counted. -/
def Walk.taken (w : Walk) : ItemKind → Nat
  | .call => w.nodes
  | .event => w.raised

/-! ## Putting shown items where the walk stands -/

/-- An item, on the frame that is executing. -/
def Walk.pushShown (w : Walk) : Shown → Walk
  | .event e => w.pushEvent e
  | .call c => w.pushCall c

/-- Items one after another, on the frame that is executing. -/
def Walk.put (w : Walk) (xs : List Shown) : Walk := xs.foldl Walk.pushShown w

/-- The walk after items that it counted. -/
def Walk.after (w : Walk) (xs : List Shown) (ks : List ItemKind) : Walk :=
  { w.put xs with
    nodes := w.nodes + ks.count .call, raised := w.raised + ks.count .event, seq := w.seq + ks.length }

/-- A frame with items inside it. -/
def TraceCall.add (frame : TraceCall) (xs : List Shown) : TraceCall :=
  { frame with events := frame.events ++ eventsIn xs, calls := frame.calls ++ callsIn xs }

theorem TraceCall.add_nil (frame : TraceCall) : frame.add [] = frame := by
  cases frame
  simp [TraceCall.add, eventsIn, callsIn]

theorem TraceCall.add_cons (frame : TraceCall) (x : Shown) (xs : List Shown) :
    frame.add (x :: xs) = (frame.add [x]).add xs := by
  cases x <;> simp [TraceCall.add, eventsIn, callsIn]

namespace Walk

theorem put_cons (w : Walk) (x : Shown) (xs : List Shown) : w.put (x :: xs) = (w.pushShown x).put xs := rfl

/-- With an open frame, an item is inside it. -/
theorem pushShown_of_frame (w : Walk) (frame : TraceCall) (callers : List TraceCall) (hstack : w.stack = frame :: callers)
    (x : Shown) : w.pushShown x = { w with stack := frame.add [x] :: callers } := by
  cases x with
  | event e =>
    rw [pushShown, pushEvent, hstack]
    simp [TraceCall.add, eventsIn, callsIn]
  | call c =>
    rw [pushShown, pushCall, hstack]
    simp [TraceCall.add, eventsIn, callsIn]

theorem put_of_frame (w : Walk) (frame : TraceCall) (callers : List TraceCall) (hstack : w.stack = frame :: callers)
    (xs : List Shown) : w.put xs = { w with stack := frame.add xs :: callers } := by
  induction xs generalizing w frame with
  | nil =>
    rw [frame.add_nil, ← hstack]
    rfl
  | cons x xs ih => rw [put_cons, pushShown_of_frame w frame callers hstack, ih _ (frame.add [x]) rfl, ← frame.add_cons]

/-- Without an open frame, the items are roots. -/
theorem put_of_root (w : Walk) (hstack : w.stack = []) (xs : List Shown) :
    w.put xs = { w with calls := w.calls ++ callsIn xs, events := w.events ++ eventsIn xs } := by
  induction xs generalizing w with
  | nil =>
    rw [eventsIn, callsIn, List.filterMap_nil, List.filterMap_nil, List.append_nil, List.append_nil]
    rfl
  | cons x xs ih =>
    cases x with
    | event e =>
      have hpush : w.pushShown (.event e) = { w with events := w.events ++ [e] } := by
        rw [pushShown, pushEvent, hstack]
      rw [put_cons, hpush, ih { w with events := w.events ++ [e] } hstack]
      simp [eventsIn, callsIn]
    | call c =>
      have hpush : w.pushShown (.call c) = { w with calls := w.calls ++ [c] } := by
        rw [pushShown, pushCall, hstack]
      rw [put_cons, hpush, ih { w with calls := w.calls ++ [c] } hstack]
      simp [eventsIn, callsIn]

/-- An open frame shows where it would show if it was closed. -/
theorem result_of_frame (w : Walk) (frame : TraceCall) (callers : List TraceCall) (hstack : w.stack = frame :: callers)
    (truncated : Bool) : w.result truncated = (pushCall { w with stack := callers } frame).result truncated := by
  cases frame
  cases callers with
  | nil => simp [result, pushCall, nest, hstack]
  | cons caller callers => simp [result, pushCall, nest, hstack]

end Walk

/-! ## What an event asks of the walk -/

/-- What an event asks of the walk: nothing, a counter, a raised event, a new frame, or the end of one. -/
inductive WalkAction where
  | skip
  | count (topics : List ScVal) (data : ScVal)
  | raise (event : Nat → TraceEvent)
  | enter (node : Nat → TraceCall)
  | leave (result : Option ScDisplay)

/-- What an event asks. -/
def actionOf (e : ContractEvent) : WalkAction :=
  match e.body with
  | .other _ => .skip
  | .v0 topics data =>
    if e.type = .contract then
      .raise fun seq =>
        { contract := contractIdOf e.contractId, topics := topics.map displayOf, data := unlessVoid (displayOf data), seq }
    else if labelOf topics = some coreMetricsLabel then .count topics data
    else if labelOf topics = some fnCallLabel then .enter (nodeOf topics data)
    else if labelOf topics = some fnReturnLabel then .leave (unlessVoid (displayOf data))
    else .skip

/-- What the walk does then. -/
def Walk.act (w : Walk) : WalkAction → Except Walk Walk
  | .skip => .ok w
  | .count topics data => .ok { w with metrics := metricsWith w.metrics topics data }
  | .raise event =>
    if maxItems ≤ w.raised then .error w
    else .ok { w.pushEvent (event w.seq) with raised := w.raised + 1, seq := w.seq + 1 }
  | .enter node =>
    if maxItems ≤ w.nodes then .error w
    else .ok { w with nodes := w.nodes + 1, stack := node w.seq :: w.stack, seq := w.seq + 1 }
  | .leave result => .ok (w.closeFrame result)

/-- A round of the walk does what its event asks. -/
theorem walkEvent_eq (w : Walk) (e : ContractEvent) : walkEvent w e = w.act (actionOf e) := by
  unfold walkEvent actionOf
  cases hbody : e.body with
  | other v => rfl
  | v0 topics data =>
    have hevent : ∀ seq, eventOf e seq = some
        { contract := contractIdOf e.contractId, topics := topics.map displayOf, data := unlessVoid (displayOf data), seq } := by
      intro seq
      rw [eventOf, hbody]
    simp only [hevent]
    split_ifs with htype hraised <;> try rfl
    · rw [Walk.act, if_pos hraised]
    · rw [Walk.act, if_neg hraised]
      unfold Walk.pushEvent
      cases w.stack <;> rfl
    · rw [Walk.act, if_pos ‹_›]
    · rw [Walk.act, if_neg ‹_›]

/-! ## Single events -/

theorem labelOf_opening {head : CallHead} (hsized : head.opening.Sized) :
    labelOf [.symbol fnCallSymbol, .bytes head.contract.bytes, .symbol head.fn] = some fnCallLabel :=
  (labelOf_cons_iff ((hsized _ _ rfl).1 _ List.mem_cons_self) (by decide)).mpr rfl

theorem labelOf_closing {head : CallHead} (hsized : head.closing.Sized) :
    labelOf [.symbol fnReturnSymbol, .symbol head.fn] = some fnReturnLabel :=
  (labelOf_cons_iff ((hsized _ _ rfl).1 _ List.mem_cons_self) (by decide)).mpr rfl

/-- The arguments are found again in the value they are packed into. -/
theorem argsOf_data {head : CallHead} (hsized : head.data.Sized) : argsOf head.data = head.shownArgs := by
  unfold argsOf CallHead.shownArgs
  rw [displayOf_eq hsized, ScVal.shown]
  rcases head.packed with hvec | ⟨hargs, halone⟩
  · rw [hvec]
    split_ifs with hfits
    · rw [ScVal.display, ScVal.displayItems_eq]
      exact List.map_map
    · rfl
  · rw [hargs]
    split_ifs with hfits
    · rw [List.map_singleton]
      cases hdata : head.data with
      | vec items => exact absurd hdata (halone items)
      | map entries => cases entries <;> rfl
      | _ => rfl
    · rfl

/-- The node that the opening event of a call opens. -/
theorem nodeOf_opening {head : CallHead} (hsized : head.opening.Sized) (seq : Nat) :
    nodeOf [.symbol fnCallSymbol, .bytes head.contract.bytes, .symbol head.fn] head.data seq = head.frame seq none [] := by
  obtain ⟨htopics, hdata⟩ := hsized _ _ rfl
  have hfn := htopics (.symbol head.fn) (by simp)
  unfold nodeOf CallHead.frame
  simp only [List.getElem?_cons_succ, List.getElem?_cons_zero, Option.bind_some]
  rw [contractOf_displayOf, decodeScSymbol_b64 hfn head.fn_valid head.fn_ne_nil, argsOf_data hdata]
  rfl

theorem actionOf_opening {head : CallHead} (hsized : head.opening.Sized) :
    actionOf head.opening = .enter fun seq => head.frame seq none [] := by
  have hmetrics : fnCallLabel ≠ coreMetricsLabel := by decide
  have hnode : nodeOf [.symbol fnCallSymbol, .bytes head.contract.bytes, .symbol head.fn] head.data =
      fun seq => head.frame seq none [] := funext (nodeOf_opening hsized)
  simp only [actionOf, CallHead.opening, labelOf_opening hsized, hnode, reduceCtorEq, if_false, Option.some.injEq, hmetrics,
    if_true]

theorem actionOf_closing {head : CallHead} (hsized : head.closing.Sized) :
    actionOf head.closing = .leave head.result.quiet := by
  have hmetrics : fnReturnLabel ≠ coreMetricsLabel := by decide
  have hcall : fnReturnLabel ≠ fnCallLabel := by decide
  simp only [actionOf, CallHead.closing, labelOf_closing hsized, unlessVoid_displayOf (hsized _ _ rfl).2, reduceCtorEq,
    if_false, Option.some.injEq, hmetrics, hcall, if_true]

theorem actionOf_contract {contractId : Option Bytes32} {topics : List ScVal} {data : ScVal}
    (hsized : ContractEvent.Sized ⟨contractId, .contract, .v0 topics data⟩) :
    actionOf ⟨contractId, .contract, .v0 topics data⟩ = .raise (shownEvent contractId topics data) := by
  obtain ⟨htopics, hdata⟩ := hsized _ _ rfl
  have hcontract : contractIdOf contractId = contractId.map fun id => js (contractStrkey id) := by
    cases contractId with
    | none => rfl
    | some id => exact scAddressOf_contract id
  have hmap : topics.map displayOf = topics.map (ScVal.shown (maxDepth + 1)) :=
    List.map_congr_left fun topic htopic => displayOf_eq (htopics topic htopic)
  simp only [actionOf, if_true, hcontract, hmap, unlessVoid_displayOf hdata]
  rfl

/-! ## Streams of forests -/

/-- The rounds of the walk over a stream. -/
def Walk.run (w : Walk) (stream : List ContractEvent) : Except Walk Walk := stream.foldlM walkEvent w

namespace Walk

theorem run_append (w : Walk) (xs ys : List ContractEvent) : w.run (xs ++ ys) = w.run xs >>= fun w' => w'.run ys :=
  List.foldlM_append

theorem run_cons (w : Walk) (e : ContractEvent) (es : List ContractEvent) :
    w.run (e :: es) = walkEvent w e >>= fun w' => w'.run es := rfl

theorem run_singleton (w : Walk) (e : ContractEvent) : w.run [e] = walkEvent w e := by
  rw [run_cons]
  cases walkEvent w e <;> rfl

/-- What a stream of items does to the walk: it puts them all, or it stops at the first one past a cap with the part before it
in place. -/
def Ran (w : Walk) (outcome : Except Walk Walk) (ks : List ItemKind) (all : List Shown) (part : Nat → List Shown) : Prop :=
  match firstPast w.taken ks with
  | none => outcome = .ok (w.after all ks)
  | some n => ∃ w', outcome = .error w' ∧ ∀ truncated, w'.result truncated = (w.put (part (w.seq + n))).result truncated

/-- The counts after items. -/
theorem taken_after (w : Walk) (xs : List Shown) (ks : List ItemKind) :
    (w.after xs ks).taken = fun k => w.taken k + ks.count k := by
  funext k
  cases k <;> rfl

/-- Counting does not change where items are put. -/
theorem put_counted (w : Walk) (nodes raised seq : Nat) (xs : List Shown) :
    ({ w with nodes, raised, seq } : Walk).put xs = { w.put xs with nodes, raised, seq } := by
  obtain ⟨calls, events, metrics, stack, _, _, _⟩ := w
  cases stack with
  | nil => rw [put_of_root _ rfl, put_of_root _ rfl]
  | cons frame callers => rw [put_of_frame _ frame callers rfl, put_of_frame _ frame callers rfl]

theorem result_counted (w : Walk) (nodes raised seq : Nat) (xs : List Shown) (truncated : Bool) :
    (put { w with nodes, raised, seq } xs).result truncated = (w.put xs).result truncated := by
  rw [put_counted]
  rfl

theorem after_after (w : Walk) (xs ys : List Shown) (ks ls : List ItemKind) :
    (w.after xs ks).after ys ls = w.after (xs ++ ys) (ks ++ ls) := by
  unfold after
  rw [put_counted]
  simp only [put, List.foldl_append, List.count_append, List.length_append, Nat.add_assoc]

/-- No item past a cap: the stream is walked to its end. -/
theorem ran_none {w : Walk} {outcome : Except Walk Walk} {ks : List ItemKind} {all : List Shown} {part : Nat → List Shown}
    (hfirst : firstPast w.taken ks = none) (houtcome : outcome = .ok (w.after all ks)) : Ran w outcome ks all part := by
  unfold Ran
  rw [hfirst]
  exact houtcome

/-- An item past a cap: the walk stops there. -/
theorem ran_some {w : Walk} {outcome : Except Walk Walk} {ks : List ItemKind} {all : List Shown} {part : Nat → List Shown}
    {n : Nat} (hfirst : firstPast w.taken ks = some n) {v : Walk} (houtcome : outcome = .error v)
    (hresult : ∀ truncated, v.result truncated = (w.put (part (w.seq + n))).result truncated) :
    Ran w outcome ks all part := by
  unfold Ran
  rw [hfirst]
  exact ⟨v, houtcome, hresult⟩

/-- Nothing is written down before the first item. -/
theorem beforeAll_self (seq : Nat) (is : List Item) : beforeAll (seq + 0) seq is = [] := by
  cases is with
  | nil => rfl
  | cons i is => rw [beforeAll, if_neg (by omega)]

theorem run_event (contractId : Option Bytes32) (topics : List ScVal) (data : ScVal)
    (hsized : ContractEvent.Sized ⟨contractId, .contract, .v0 topics data⟩) (w : Walk) :
    Ran w (w.run (Item.emit (.event contractId topics data))) [.event] [Item.shown w.seq (.event contractId topics data)]
      fun n => beforeAll n w.seq [.event contractId topics data] := by
  have hrun : w.run (Item.emit (.event contractId topics data)) = _ :=
    (w.run_singleton _).trans ((walkEvent_eq w _).trans (congrArg _ (actionOf_contract hsized)))
  by_cases hcap : maxItems ≤ w.raised
  · rw [Walk.act, if_pos hcap] at hrun
    refine ran_some (n := 0) (if_pos hcap) hrun fun truncated => ?_
    rw [beforeAll_self]
    rfl
  · rw [Walk.act, if_neg hcap] at hrun
    refine ran_none (if_neg hcap) (hrun.trans ?_)
    have hcounts : ∀ e, (w.pushEvent e).nodes = w.nodes := by
      intro e
      unfold pushEvent
      cases w.stack <;> rfl
    unfold after
    simp only [put, List.foldl_cons, List.foldl_nil, pushShown, Item.shown, List.length_singleton]
    rw [← hcounts]
    rfl

/-- A new frame with items inside it. -/
theorem frame_add (head : CallHead) (seq : Nat) (result : Option ScDisplay) (xs : List Shown) :
    (head.frame seq result []).add xs = head.frame seq result xs := by
  simp [CallHead.frame, TraceCall.add, eventsIn, callsIn]

/-- The walk inside the frame of a call that was just opened. -/
def opened (w : Walk) (head : CallHead) : Walk :=
  { w with nodes := w.nodes + 1, stack := head.frame w.seq none [] :: w.stack, seq := w.seq + 1 }

theorem taken_opened (w : Walk) (head : CallHead) : (w.opened head).taken = fun k => w.taken k + [ItemKind.call].count k := by
  funext k
  cases k <;> rfl

theorem put_opened (w : Walk) (head : CallHead) (xs : List Shown) :
    (w.opened head).put xs = { w.opened head with stack := head.frame w.seq none xs :: w.stack } := by
  rw [put_of_frame _ (head.frame w.seq none []) w.stack rfl, frame_add]

/-- Closing the frame puts the finished call where the walk stood before it. -/
theorem closeFrame_opened (w : Walk) (head : CallHead) (xs : List Shown) (ks : List ItemKind) (result : Option ScDisplay) :
    ((w.opened head).after xs ks).closeFrame result = w.after [.call (head.frame w.seq result xs)] (.call :: ks) := by
  have hclose : ((w.opened head).after xs ks).closeFrame result =
      pushCall { w with
          nodes := w.nodes + 1 + ks.count .call, raised := w.raised + ks.count .event, seq := w.seq + 1 + ks.length }
        (head.frame w.seq result xs) := by
    rw [after, put_opened]
    rfl
  rw [hclose]
  have hput := put_counted w (w.nodes + 1 + ks.count .call) (w.raised + ks.count .event) (w.seq + 1 + ks.length)
    [.call (head.frame w.seq result xs)]
  refine hput.trans ?_
  rw [after, List.count_cons_self, List.count_cons_of_ne (by decide), List.length_cons, Nat.add_assoc w.nodes,
    Nat.add_comm 1, Nat.add_assoc w.seq, Nat.add_comm 1]

/-- A frame that is still open shows as a call without a result. -/
theorem result_opened (w : Walk) (head : CallHead) (xs : List Shown) (truncated : Bool) :
    ((w.opened head).put xs).result truncated = (w.put [.call (head.frame w.seq none xs)]).result truncated := by
  rw [put_opened, result_of_frame _ (head.frame w.seq none xs) w.stack rfl]
  exact result_counted w (w.nodes + 1) w.raised (w.seq + 1) [.call (head.frame w.seq none xs)] truncated

theorem run_call (head : CallHead) (body : List Item) (hopening : head.opening.Sized) (hclosing : head.closing.Sized)
    (ih : ∀ w : Walk, Ran w (w.run (emitAll body)) (kindsOf body) (shownAll w.seq body) fun n => beforeAll n w.seq body)
    (w : Walk) :
    Ran w (w.run (Item.emit (.call head body))) (Item.kinds (.call head body)) [Item.shown w.seq (.call head body)]
      fun n => beforeAll n w.seq [.call head body] := by
  have hrun : w.run (Item.emit (.call head body)) =
      walkEvent w head.opening >>= fun w' => w'.run (emitAll body) >>= fun w'' => walkEvent w'' head.closing := by
    rw [Item.emit, run_cons]
    refine congrArg _ (funext fun w' => ?_)
    rw [run_append]
    exact congrArg _ (funext fun w'' => run_singleton w'' _)
  rw [walkEvent_eq, actionOf_opening hopening] at hrun
  by_cases hcap : maxItems ≤ w.nodes
  · rw [Walk.act, if_pos hcap] at hrun
    refine ran_some (n := 0) (if_pos hcap) hrun fun truncated => ?_
    rw [beforeAll_self]
    rfl
  · rw [Walk.act, if_neg hcap] at hrun
    have hbody := ih (w.opened head)
    have hfirst : firstPast w.taken (.call :: kindsOf body) = (firstPast (w.opened head).taken (kindsOf body)).map Nat.succ := by
      have hcall : ¬maxItems ≤ w.taken .call := hcap
      rw [firstPast, if_neg hcall, taken_opened]
    cases hm : firstPast (w.opened head).taken (kindsOf body) with
    | none =>
      unfold Ran at hbody
      rw [hm] at hbody hfirst
      refine ran_none hfirst (hrun.trans ?_)
      show ((w.opened head).run (emitAll body) >>= fun w'' => walkEvent w'' head.closing) = _
      rw [hbody]
      show walkEvent _ head.closing = _
      rw [walkEvent_eq, actionOf_closing hclosing]
      exact congrArg _ (closeFrame_opened w head _ _ _)
    | some m =>
      unfold Ran at hbody
      rw [hm] at hbody hfirst
      obtain ⟨w', houtcome, hresult⟩ := hbody
      have hlt := firstPast_lt hm
      refine ran_some hfirst (hrun.trans ?_) (v := w') fun truncated => ?_
      · show ((w.opened head).run (emitAll body) >>= fun w'' => walkEvent w'' head.closing) = _
        rw [houtcome]
        rfl
      · have hpart : beforeAll (w.seq + m.succ) w.seq [.call head body] =
            [.call (head.frame w.seq none (beforeAll (w.seq + 1 + m) (w.seq + 1) body))] := by
          rw [beforeAll, if_pos (by omega), Item.before, if_neg (by omega), beforeAll,
            show w.seq + m.succ = w.seq + 1 + m by omega]
        rw [hresult truncated, hpart]
        exact result_opened w head _ truncated

/-- The walk over the stream of a forest: it puts the whole forest in place, or stops at the first item past a cap. -/
theorem run_items (forest : List Item) : (∀ e ∈ emitAll forest, e.Sized) → ∀ w : Walk,
    Ran w (w.run (emitAll forest)) (kindsOf forest) (shownAll w.seq forest) fun n => beforeAll n w.seq forest := by
  induction forest using Item.forest_induction (P := fun i => (∀ e ∈ i.emit, e.Sized) → ∀ w : Walk,
    Ran w (w.run i.emit) i.kinds [i.shown w.seq] fun n => beforeAll n w.seq [i]) with
  | event contractId topics data hsized w => exact run_event contractId topics data (hsized _ List.mem_cons_self) w
  | call head body ih hsized w =>
    refine run_call head body (hsized _ List.mem_cons_self) (hsized _ ?_) (ih fun e he => hsized e ?_) w
    · exact List.mem_cons_of_mem _ (List.mem_append_right _ List.mem_cons_self)
    · exact List.mem_cons_of_mem _ (List.mem_append_left _ he)
  | nil => exact fun _ w => ran_none rfl rfl
  | cons i is hi his =>
    intro hsized w
    have hhead := hi (fun e he => hsized e (List.mem_append_left _ he)) w
    have htail := his fun e he => hsized e (List.mem_append_right _ he)
    have hrun : w.run (emitAll (i :: is)) = w.run i.emit >>= fun w' => w'.run (emitAll is) := run_append w _ _
    have hfirst := firstPast_append w.taken i.kinds (kindsOf is)
    cases hm : firstPast w.taken i.kinds with
    | some m =>
      unfold Ran at hhead
      rw [hm] at hhead hfirst
      obtain ⟨w', houtcome, hresult⟩ := hhead
      have hlt := firstPast_lt hm
      refine ran_some hfirst (v := w') (hrun.trans ?_) fun truncated => ?_
      · rw [houtcome]
        rfl
      · have hpart : beforeAll (w.seq + m) w.seq (i :: is) = beforeAll (w.seq + m) w.seq [i] := by
          have hrest : beforeAll (w.seq + m) (w.seq + i.kinds.length) is = [] := by
            cases is with
            | nil => rfl
            | cons j js => rw [beforeAll, if_neg (by omega)]
          rw [beforeAll, beforeAll, hrest, beforeAll]
        rw [hresult truncated, hpart]
    | none =>
      unfold Ran at hhead
      rw [hm] at hhead hfirst
      rw [hhead] at hrun
      have hrest := htail (w.after [i.shown w.seq] i.kinds)
      rw [← taken_after w [i.shown w.seq]] at hfirst
      cases hn : firstPast (w.after [i.shown w.seq] i.kinds).taken (kindsOf is) with
      | none =>
        unfold Ran at hrest
        rw [hn] at hrest hfirst
        refine ran_none hfirst (hrun.trans (hrest.trans ?_))
        rw [after_after]
        rfl
      | some n =>
        unfold Ran at hrest
        rw [hn] at hrest hfirst
        obtain ⟨w', houtcome, hresult⟩ := hrest
        refine ran_some hfirst (v := w') (hrun.trans houtcome) fun truncated => ?_
        have hpos := i.kinds_length_pos
        have hpart : beforeAll (w.seq + (i.kinds.length + n)) w.seq (i :: is) =
            i.shown w.seq :: beforeAll (w.seq + i.kinds.length + n) (w.seq + i.kinds.length) is := by
          rw [beforeAll, if_pos (by omega), i.before_of_le (by omega), Nat.add_assoc w.seq]
        rw [hresult truncated, hpart, put_cons]
        exact result_counted (w.pushShown (i.shown w.seq)) _ _ _ _ truncated

end Walk

end Soroscan

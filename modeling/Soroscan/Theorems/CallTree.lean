import Soroscan.CallTree
import Soroscan.Lemmas.Diagnostics
import Soroscan.Lib.Descending

/-!
# The call tree inverts the stream

From the stream that a forest of calls was written down as, with other diagnostic events in between, the walk builds the forest
again, or, past a cap, the part that was written down before. In every frame the order of events and sub-calls is found again
from their numbers.
-/

namespace Soroscan

/-! ## Events the tree does not show -/

/-- An event that opens and closes nothing and is no contract event: a counter, or one that is not known. -/
def isNoise (e : ContractEvent) : Bool :=
  match e.body with
  | .other _ => true
  | .v0 topics _ =>
    decide (e.type ≠ .contract) &&
      match topics with
      | .symbol s :: _ => decide (s ≠ fnCallSymbol) && decide (s ≠ fnReturnSymbol)
      | _ => true

/-- The symbol `core_metrics`. -/
def coreMetricsSymbol : Bytes := [99, 111, 114, 101, 95, 109, 101, 116, 114, 105, 99, 115]

/-- The walk with other counters. -/
def Walk.withMetrics (m : List (JsString × JsString)) (w : Walk) : Walk := { w with metrics := m }

/-- A change of the walk, whether it goes on or has ended. -/
def onBoth (f : Walk → Walk) : Except Walk Walk → Except Walk Walk
  | .ok w => .ok (f w)
  | .error w => .error (f w)

/-- A label that is a valid symbol is the first topic. -/
theorem topics_of_labelOf (label : Bytes) (hvalid : ScReader.validSymbol label = true) {topics : List ScVal}
    (hsized : ∀ topic ∈ topics, topic.Sized) (h : labelOf topics = some (ScReader.fromCharCode label)) :
    ∃ rest, topics = .symbol label :: rest := by
  cases topics with
  | nil => cases h
  | cons topic rest =>
    have htopic := (labelOf_cons_iff (hsized topic List.mem_cons_self) hvalid).mp h
    exact ⟨rest, by rw [htopic]⟩

/-- Noise asks nothing of the walk but counters. -/
theorem actionOf_noise {e : ContractEvent} (hsized : e.Sized) (hnoise : isNoise e = true) :
    actionOf e = .skip ∨ ∃ topics data, actionOf e = .count topics data := by
  unfold isNoise at hnoise
  unfold actionOf
  cases hbody : e.body with
  | other v => exact Or.inl rfl
  | v0 topics data =>
    rw [hbody] at hnoise
    obtain ⟨htype, htopics⟩ := Bool.and_eq_true_iff.mp hnoise
    obtain ⟨hsizes, -⟩ := hsized topics data hbody
    have hcall : labelOf topics ≠ some fnCallLabel := by
      intro h
      obtain ⟨rest, rfl⟩ := topics_of_labelOf fnCallSymbol (by decide) hsizes h
      simp at htopics
    have hreturn : labelOf topics ≠ some fnReturnLabel := by
      intro h
      obtain ⟨rest, rfl⟩ := topics_of_labelOf fnReturnSymbol (by decide) hsizes h
      simp at htopics
    simp only [if_neg (of_decide_eq_true htype), if_neg hcall, if_neg hreturn]
    split_ifs
    · exact Or.inr ⟨_, _, rfl⟩
    · exact Or.inl rfl

/-- An event that is no noise does not ask for a counter. -/
theorem actionOf_ne_count {e : ContractEvent} (hsized : e.Sized) (hnoise : isNoise e = false) (topics : List ScVal)
    (data : ScVal) : actionOf e ≠ .count topics data := by
  intro h
  unfold actionOf at h
  unfold isNoise at hnoise
  cases hbody : e.body with
  | other v =>
    rw [hbody] at hnoise
    cases hnoise
  | v0 topics' data' =>
    rw [hbody] at hnoise h
    obtain ⟨hsizes, -⟩ := hsized topics' data' hbody
    simp only at h
    split_ifs at h with htype hlabel
    obtain ⟨rest, rfl⟩ := topics_of_labelOf coreMetricsSymbol (by decide) hsizes hlabel
    simp [htype, coreMetricsSymbol, fnCallSymbol, fnReturnSymbol] at hnoise

theorem pushEvent_withMetrics (w : Walk) (m : List (JsString × JsString)) (event : TraceEvent) :
    (w.withMetrics m).pushEvent event = (w.pushEvent event).withMetrics m := by
  obtain ⟨_, _, _, stack, _, _, _⟩ := w
  cases stack <;> rfl

theorem closeFrame_withMetrics (w : Walk) (m : List (JsString × JsString)) (result : Option ScDisplay) :
    (w.withMetrics m).closeFrame result = (w.closeFrame result).withMetrics m := by
  obtain ⟨_, _, _, stack, _, _, _⟩ := w
  rcases stack with _ | ⟨frame, _ | ⟨caller, callers⟩⟩ <;> rfl

/-- An action that is no counter does the same whatever was counted before. -/
theorem act_withMetrics {action : WalkAction} (haction : ∀ topics data, action ≠ .count topics data) (w : Walk)
    (m : List (JsString × JsString)) : (w.withMetrics m).act action = onBoth (Walk.withMetrics m) (w.act action) := by
  cases action with
  | skip => rfl
  | count topics data => exact absurd rfl (haction topics data)
  | raise event =>
    by_cases hcap : maxItems ≤ w.raised
    · rw [Walk.act, Walk.act, if_pos hcap]
      exact if_pos hcap
    · have hpush := pushEvent_withMetrics w m (event w.seq)
      rw [Walk.act, Walk.act, if_neg hcap]
      refine (if_neg hcap).trans ?_
      rw [show (w.withMetrics m).seq = w.seq from rfl, hpush]
      rfl
  | enter node =>
    by_cases hcap : maxItems ≤ w.nodes
    · rw [Walk.act, Walk.act, if_pos hcap]
      exact if_pos hcap
    · rw [Walk.act, Walk.act, if_neg hcap]
      exact if_neg hcap
  | leave result => exact congrArg Except.ok (closeFrame_withMetrics w m result)

/-- Without noise, a stream does the same whatever was counted before. -/
theorem run_withMetrics {stream : List ContractEvent} (hsized : ∀ e ∈ stream, e.Sized)
    (hnoise : ∀ e ∈ stream, isNoise e = false) (w : Walk) (m : List (JsString × JsString)) :
    (w.withMetrics m).run stream = onBoth (Walk.withMetrics m) (w.run stream) := by
  induction stream generalizing w with
  | nil => rfl
  | cons e es ih =>
    rw [Walk.run_cons, Walk.run_cons, walkEvent_eq, walkEvent_eq,
      act_withMetrics (actionOf_ne_count (hsized e List.mem_cons_self) (hnoise e List.mem_cons_self))]
    cases w.act (actionOf e) with
    | error w' => rfl
    | ok w' =>
      exact ih (fun e' he' => hsized e' (List.mem_cons_of_mem _ he')) (fun e' he' => hnoise e' (List.mem_cons_of_mem _ he')) w'

/-- Noise changes nothing but the counters. -/
theorem run_filter {stream : List ContractEvent} (hsized : ∀ e ∈ stream, e.Sized) (w : Walk) :
    ∃ m, w.run stream = onBoth (Walk.withMetrics m) (w.run (stream.filter fun e => !isNoise e)) := by
  induction stream generalizing w with
  | nil => exact ⟨w.metrics, rfl⟩
  | cons e es ih =>
    have hes : ∀ e' ∈ es, e'.Sized := fun e' he' => hsized e' (List.mem_cons_of_mem _ he')
    have he := hsized e List.mem_cons_self
    cases hnoise : isNoise e with
    | false =>
      rw [List.filter_cons_of_pos (by rw [hnoise]; rfl), Walk.run_cons, Walk.run_cons]
      cases walkEvent w e with
      | error w' => exact ⟨w'.metrics, rfl⟩
      | ok w' => exact ih hes w'
    | true =>
      have hkept : ∀ e' ∈ es.filter fun e => !isNoise e, e'.Sized ∧ isNoise e' = false := by
        intro e' he'
        obtain ⟨hmem, hnot⟩ := List.mem_filter.mp he'
        exact ⟨hes e' hmem, by simpa using hnot⟩
      have hstep : ∃ m, walkEvent w e = .ok (w.withMetrics m) := by
        rw [walkEvent_eq]
        rcases actionOf_noise he hnoise with h | ⟨topics, data, h⟩
        · exact ⟨w.metrics, by rw [h]; rfl⟩
        · exact ⟨metricsWith w.metrics topics data, by rw [h]; rfl⟩
      obtain ⟨m, hm⟩ := hstep
      obtain ⟨m', hm'⟩ := ih hes (w.withMetrics m)
      refine ⟨m', ?_⟩
      rw [List.filter_cons_of_neg (by rw [hnoise]; decide), Walk.run_cons, hm]
      show (w.withMetrics m).run es = _
      rw [hm', run_withMetrics (fun e' he' => (hkept e' he').1) fun e' he' => (hkept e' he').2]
      cases w.run (es.filter fun e => !isNoise e) <;> rfl


/-! ## The order inside a frame -/

/-- A child as an item. -/
def Child.shown : Child → Shown
  | .event e _ => .event e
  | .call c _ => .call c

theorem Child.seq_shown (c : Child) : c.shown.seq = c.seq := by
  cases c <;> rfl

theorem Item.seq_before (n seq : Nat) (i : Item) : (i.before n seq).seq = seq := by
  cases i <;> rfl

/-- The items of a forest are numbered in the order they were written down. -/
theorem ascending_beforeAll (n : Nat) (is : List Item) :
    ∀ seq, (∀ x ∈ beforeAll n seq is, seq ≤ x.seq) ∧ (beforeAll n seq is).Pairwise fun x y => x.seq < y.seq := by
  induction is with
  | nil => exact fun seq => ⟨fun x hx => absurd hx List.not_mem_nil, List.Pairwise.nil⟩
  | cons i is ih =>
    intro seq
    obtain ⟨hle, hsorted⟩ := ih (seq + i.kinds.length)
    have hpos := i.kinds_length_pos
    rw [beforeAll]
    split_ifs
    · refine ⟨List.forall_mem_cons.mpr ⟨(Item.seq_before n seq i).ge, fun x hx => ?_⟩, List.pairwise_cons.mpr ⟨?_, hsorted⟩⟩
      · exact le_trans (Nat.le_add_right _ _) (hle x hx)
      · intro x hx
        have := hle x hx
        rw [Item.seq_before]
        omega
    · exact ⟨fun x hx => absurd hx List.not_mem_nil, List.Pairwise.nil⟩

/-- The events and the calls among items are all of them. -/
theorem perm_eventsIn_callsIn (xs : List Shown) : ((eventsIn xs).map Shown.event ++ (callsIn xs).map Shown.call).Perm xs := by
  induction xs with
  | nil => exact List.Perm.refl _
  | cons x xs ih =>
    cases x with
    | event e => exact ih.cons _
    | call c => exact List.perm_middle.trans (ih.cons _)

/-- A map that forgets the index. -/
theorem map_mapIdx {α β γ : Type} (f : Nat → α → β) (g : β → γ) (h : α → γ) (hf : ∀ i a, g (f i a) = h a) (l : List α) :
    (l.mapIdx f).map g = l.map h := by
  rw [List.mapIdx_eq_zipIdx_map, List.map_map, ← List.zipIdx_map_fst 0 l, List.map_map]
  simp only [List.zipIdx_map_fst]
  exact List.map_congr_left fun p _ => hf p.2 p.1

/-- The children of a frame are its items. -/
theorem children_perm (head : CallHead) (seq : Nat) (result : Option ScDisplay) (xs : List Shown) :
    ((head.frame seq result xs).children.map Child.shown).Perm xs := by
  refine ((List.mergeSort_perm _ _).map Child.shown).trans ?_
  have hevents : ((eventsIn xs).mapIdx fun index event => Child.event event index).map Child.shown =
      (eventsIn xs).map Shown.event := map_mapIdx (fun index e => .event e index) Child.shown Shown.event (fun _ _ => rfl) _
  have hcalls : ((callsIn xs).mapIdx fun index sub => Child.call sub index).map Child.shown =
      (callsIn xs).map Shown.call := map_mapIdx (fun index c => .call c index) Child.shown Shown.call (fun _ _ => rfl) _
  rw [List.map_append]
  exact (hevents.symm ▸ hcalls.symm ▸ perm_eventsIn_callsIn xs :)

/-- Sorting the children of a frame restores the order of its items. -/
theorem children_frame (head : CallHead) (seq : Nat) (result : Option ScDisplay) {xs : List Shown}
    (hsorted : xs.Pairwise fun x y => x.seq < y.seq) : (head.frame seq result xs).children.map Child.shown = xs := by
  have hitems : Descending (OrderDual.toDual ∘ Shown.seq) xs := hsorted
  refine Descending.eq_of_perm ?_ hitems (children_perm head seq result xs)
  refine List.pairwise_map.mpr ?_
  have hchildren : ∀ children : List Child,
      (children.mergeSort fun left right => decide (left.seq ≤ right.seq)).Pairwise fun a b => decide (a.seq ≤ b.seq) = true :=
    List.pairwise_mergeSort
      (fun a b c hab hbc => decide_eq_true (le_trans (of_decide_eq_true hab) (of_decide_eq_true hbc)))
      fun a b => by
        rw [Bool.or_eq_true, decide_eq_true_eq, decide_eq_true_eq]
        exact le_total _ _
  refine (hchildren _).imp fun {a b} hab => ?_
  show b.shown.seq ≥ a.shown.seq
  rw [Child.seq_shown, Child.seq_shown]
  exact of_decide_eq_true hab

/-! ## The frames of a tree -/

/-- A frame of a tree of calls, at any depth. -/
inductive FrameOf (frame : TraceCall) : List TraceCall → Prop where
  | root {calls : List TraceCall} (h : frame ∈ calls) : FrameOf frame calls
  | inner {calls : List TraceCall} {caller : TraceCall} (hcaller : caller ∈ calls) (h : FrameOf frame caller.calls) :
    FrameOf frame calls

/-- A call of a forest, at any depth, with its body. -/
inductive CallOf (head : CallHead) (body : List Item) : List Item → Prop where
  | root {forest : List Item} (h : .call head body ∈ forest) : CallOf head body forest
  | inner {forest : List Item} {caller : CallHead} {callerBody : List Item} (hcaller : .call caller callerBody ∈ forest)
    (h : CallOf head body callerBody) : CallOf head body forest

/-- A frame among the shown items is that of a call of the forest. -/
theorem mem_callsIn_beforeAll {n : Nat} {frame : TraceCall} {is : List Item} :
    ∀ {seq : Nat}, frame ∈ callsIn (beforeAll n seq is) → ∃ head body seq' result,
      .call head body ∈ is ∧ frame = head.frame seq' result (beforeAll n (seq' + 1) body) := by
  induction is with
  | nil => exact fun h => absurd h List.not_mem_nil
  | cons i is ih =>
    intro seq h
    rw [beforeAll] at h
    split_ifs at h
    · have hrest : frame ∈ callsIn (beforeAll n (seq + i.kinds.length) is) → _ := fun h => ih h
      cases i with
      | event contractId topics data =>
        obtain ⟨head, body, seq', result, hmem, heq⟩ := ih h
        exact ⟨head, body, seq', result, List.mem_cons_of_mem _ hmem, heq⟩
      | call head body =>
        rcases List.mem_cons.mp h with rfl | h
        · exact ⟨head, body, seq, _, List.mem_cons_self, rfl⟩
        · obtain ⟨head, body, seq', result, hmem, heq⟩ := ih h
          exact ⟨head, body, seq', result, List.mem_cons_of_mem _ hmem, heq⟩
    · exact absurd h List.not_mem_nil

/-- Every frame of the shown tree is that of a call of the forest, and its children are the items of the body in order. -/
theorem frameOf_beforeAll {n : Nat} {frame : TraceCall} {calls : List TraceCall} (h : FrameOf frame calls) :
    ∀ {seq : Nat} {forest : List Item}, calls = callsIn (beforeAll n seq forest) → ∃ head body seq' result,
      CallOf head body forest ∧ frame = head.frame seq' result (beforeAll n (seq' + 1) body) ∧
        frame.children.map Child.shown = beforeAll n (seq' + 1) body := by
  induction h with
  | root hmem =>
    rintro seq forest rfl
    obtain ⟨head, body, seq', result, hcall, rfl⟩ := mem_callsIn_beforeAll hmem
    exact ⟨head, body, seq', result, .root hcall, rfl, children_frame head seq' result (ascending_beforeAll n body _).2⟩
  | inner hmem _ ih =>
    rintro seq forest rfl
    obtain ⟨caller, callerBody, callerSeq, callerResult, hcaller, rfl⟩ := mem_callsIn_beforeAll hmem
    obtain ⟨head, body, seq', result, hcall, hframe, hchildren⟩ := ih rfl
    exact ⟨head, body, seq', result, .inner hcaller hcall, hframe, hchildren⟩

/-! ## The walk over the whole stream -/

/-- What the walk returns for a stream of a forest with noise in it, whether it goes to the end or not. -/
theorem walkDiagnostics_of_ran {forest : List Item} {stream : List ContractEvent} (hsized : ∀ e ∈ stream, e.Sized)
    (hstream : (stream.filter fun e => !isNoise e) = emitAll forest) :
    (firstPast (fun _ => 0) (kindsOf forest) = none → ∃ metrics, walkDiagnostics stream =
      ⟨callsIn (shownAll 0 forest), eventsIn (shownAll 0 forest), metrics, false⟩) ∧
    ∀ n, firstPast (fun _ => 0) (kindsOf forest) = some n → ∃ metrics, walkDiagnostics stream =
      ⟨callsIn (beforeAll n 0 forest), eventsIn (beforeAll n 0 forest), metrics, true⟩ := by
  obtain ⟨metrics, hrun⟩ := run_filter hsized Walk.start
  rw [hstream] at hrun
  have htaken : Walk.start.taken = fun _ => 0 := funext fun k => by cases k <;> rfl
  have hsizes : ∀ e ∈ emitAll forest, e.Sized := fun e he => hsized e (List.mem_of_mem_filter (hstream ▸ he))
  have hran := Walk.run_items forest hsizes Walk.start
  unfold Walk.Ran at hran
  rw [htaken] at hran
  have hwalk : walkDiagnostics stream = match Walk.start.run stream with
    | .ok w => w.result false
    | .error w => w.result true := rfl
  refine ⟨fun hnone => ⟨metrics, ?_⟩, fun n hsome => ⟨metrics, ?_⟩⟩
  · rw [hnone] at hran
    rw [hwalk, hrun, hran]
    show ((Walk.start.after (shownAll 0 forest) (kindsOf forest)).withMetrics metrics).result false = _
    rw [Walk.after, Walk.put_of_root _ rfl]
    simp [Walk.result, Walk.withMetrics, Walk.start, Walk.nest]
  · rw [hsome] at hran
    obtain ⟨w', houtcome, hresult⟩ := hran
    have hpart := hresult true
    rw [show Walk.start.seq + n = n from Nat.zero_add n, Walk.put_of_root _ rfl] at hpart
    rw [hwalk, hrun, houtcome]
    show { w'.result true with metrics } = _
    rw [hpart]
    simp [Walk.result, Walk.start, Walk.nest]

/-- The walk over the stream of a forest, with noise anywhere in it, builds the forest. When the forest has more calls or more
events than the caps, the walk says so and builds the part before the first item past a cap. In every frame that is built, at
any depth, sorting the children restores the order in which the items of the body were written down. -/
theorem walkDiagnostics_rebuilds (forest : List Item) (stream : List ContractEvent) (hsized : ∀ e ∈ stream, e.Sized)
    (hstream : (stream.filter fun e => !isNoise e) = emitAll forest) :
    ((∀ k, (kindsOf forest).count k ≤ maxItems) → ∃ metrics, walkDiagnostics stream =
      ⟨callsIn (shownAll 0 forest), eventsIn (shownAll 0 forest), metrics, false⟩) ∧
    (∀ k, maxItems < (kindsOf forest).count k → ∃ n metrics, FirstPast (kindsOf forest) n ∧ walkDiagnostics stream =
      ⟨callsIn (beforeAll n 0 forest), eventsIn (beforeAll n 0 forest), metrics, true⟩) ∧
    ∀ frame, FrameOf frame (walkDiagnostics stream).calls → ∃ n head body seq result,
      CallOf head body forest ∧ frame = head.frame seq result (beforeAll n (seq + 1) body) ∧
        frame.children.map Child.shown = beforeAll n (seq + 1) body := by
  obtain ⟨hwhole, hcut⟩ := walkDiagnostics_of_ran hsized hstream
  refine ⟨fun hcaps => hwhole (firstPast_eq_none fun k => ?_), fun k hk => ?_, fun frame hframe => ?_⟩
  · rw [Nat.zero_add]
    exact hcaps k
  · obtain ⟨n, hn, hfirst⟩ := exists_firstPast hk
    obtain ⟨metrics, hwalk⟩ := hcut n hn
    exact ⟨n, metrics, hfirst, hwalk⟩
  · cases hn : firstPast (fun _ => 0) (kindsOf forest) with
    | none =>
      obtain ⟨metrics, hwalk⟩ := hwhole hn
      rw [hwalk, ← beforeAll_of_le (n := 0 + (kindsOf forest).length) forest 0 le_rfl] at hframe
      exact ⟨_, frameOf_beforeAll hframe rfl⟩
    | some n =>
      obtain ⟨metrics, hwalk⟩ := hcut n hn
      rw [hwalk] at hframe
      exact ⟨n, frameOf_beforeAll hframe rfl⟩

/-! ## Streams -/

/-- A call of a contract with one argument, which is a vector of its own. -/
def depositCall : CallHead where
  contract := Bytes32.zero
  fn := [100, 101, 112, 111, 115, 105, 116]
  fn_valid := by decide
  fn_ne_nil := by decide
  args := [.vec (some [.u32 7, .bool true])]
  data := .vec (some [.vec (some [.u32 7, .bool true])])
  packed := Or.inl rfl
  result := .void
  callerId := none
  calleeId := some Bytes32.zero

/-- A call with one argument, which arrives alone. -/
def transferCall : CallHead where
  contract := Bytes32.zero
  fn := [116, 114, 97, 110, 115, 102, 101, 114]
  fn_valid := by decide
  fn_ne_nil := by decide
  args := [.i128 0 100]
  data := .i128 0 100
  packed := Or.inr ⟨rfl, fun _ h => by cases h⟩
  result := .u32 1
  callerId := some Bytes32.zero
  calleeId := some Bytes32.zero

/-- A deposit that raises an event, transfers, and raises another event. -/
def depositForest : List Item :=
  [.call depositCall [.event (some Bytes32.zero) [.symbol [97]] .void, .call transferCall [],
    .event (some Bytes32.zero) [.symbol [98]] (.u64 5)]]

/-- The stream of the deposit, between a counter and an event of a version that is not known. -/
def depositStream : List ContractEvent :=
  ⟨none, .diagnostic, .v0 [.symbol coreMetricsSymbol, .symbol [99, 112, 117]] (.u64 900)⟩ ::
    (emitAll depositForest ++ [⟨none, .diagnostic, .other 1⟩])

theorem walkDiagnostics_depositStream : ∃ metrics, walkDiagnostics depositStream =
    ⟨callsIn (shownAll 0 depositForest), eventsIn (shownAll 0 depositForest), metrics, false⟩ := by
  have hsized : ∀ e ∈ depositStream, e.Sized := by
    refine ContractEvent.forall_sized 9 ?_
    decide
  refine (walkDiagnostics_rebuilds depositForest depositStream hsized rfl).1 fun k => ?_
  cases k <;> decide

/-- So many vectors around a number. -/
def nestedVec : Nat → ScVal
  | 0 => .u32 7
  | depth + 1 => .vec (some [nestedVec depth])

/-- A call whose one argument has eight vectors in it. -/
def nestedCall : CallHead where
  contract := Bytes32.zero
  fn := [102]
  fn_valid := by decide
  fn_ne_nil := by decide
  args := [nestedVec 8]
  data := .vec (some [nestedVec 8])
  packed := Or.inl rfl
  result := .void
  callerId := none
  calleeId := some Bytes32.zero

/-- A call whose argument is nested too deep is shown as if it had no arguments. -/
theorem walkDiagnostics_nestedCall :
    nestedCall.args.length = 1 ∧
      (walkDiagnostics (emitAll [.call nestedCall []])).calls.map (fun call => call.args.length) = [0] := by
  have hsized : ∀ e ∈ emitAll [.call nestedCall []], e.Sized := by
    refine ContractEvent.forall_sized 9 ?_
    decide
  obtain ⟨metrics, hwalk⟩ := (@walkDiagnostics_of_ran [.call nestedCall []] _ hsized rfl).1 rfl
  refine ⟨rfl, ?_⟩
  rw [hwalk]
  show [nestedCall.shownArgs.length] = [0]
  decide

end Soroscan

import Soroscan.Lib.Brackets
import Soroscan.Lemmas.StreamItems

/-!
# Whose value a return is

A call that traps leaves its frame open, and the next `fn_return` closes the innermost frame whatever function it names. The walk
sets every result on a call of the function it came from exactly when each call that is closed is closed by a return of its own
function (`CallsAnswered`), which the events say by themselves: the brackets are `fn_call` and `fn_return`.
-/

namespace Soroscan

/-- The function that a call names in its third topic. -/
def calledFunction (topics : List ScVal) : JsString :=
  (topics[2]?.bind fun topic => decodeScSymbol topic.b64).getD unknownName

/-- The function that a return names in its second topic. -/
def returnedFunction (topics : List ScVal) : JsString :=
  (topics[1]?.bind fun topic => decodeScSymbol topic.b64).getD unknownName

/-- What an event does to the frames: an `fn_call` opens one, an `fn_return` closes one. -/
def frameBracket (e : ContractEvent) : Bracket JsString :=
  match e.body with
  | .other _ => .neither
  | .v0 topics _ =>
    if e.type = .contract then .neither
    else if labelOf topics = some fnCallLabel then .opening (calledFunction topics)
    else if labelOf topics = some fnReturnLabel then .closing
    else .neither

/-- Whenever the walk sets a result that counts on the innermost open frame, the return it came from names the function of that
frame. -/
def ResultsBelong (counts : Option ScDisplay → Prop) (stream : List ContractEvent) : Prop :=
  ∀ before e after w frame callers topics data, stream = before ++ e :: after → Walk.start.run before = .ok w →
    w.stack = frame :: callers → frameBracket e = .closing → e.body = .v0 topics data →
    counts (unlessVoid (displayOf data)) → frame.fn = returnedFunction topics

/-- Every call that only balanced events and then a return with a result that counts follow, within the caps of the walk, is
answered by a return of its own function. -/
def CallsAnswered (counts : Option ScDisplay → Prop) (stream : List ContractEvent) : Prop :=
  ∀ before call inside e after fn topics data, stream = before ++ call :: inside ++ e :: after →
    frameBracket call = .opening fn → Bracket.Balanced frameBracket inside → frameBracket e = .closing →
    e.body = .v0 topics data → counts (unlessVoid (displayOf data)) →
    (∀ k, (streamKinds (before ++ call :: inside)).count k ≤ maxItems) → fn = returnedFunction topics

/-! ## What a return sets -/

mutual

/-- The results of a call and of the calls inside it, each under the number of its call. -/
def TraceCall.results : TraceCall → List (Nat × Option ScDisplay)
  | ⟨_, _, _, result, _, calls, seq⟩ => (seq, result) :: resultsOfCalls calls

def resultsOfCalls : List TraceCall → List (Nat × Option ScDisplay)
  | [] => []
  | call :: calls => call.results ++ resultsOfCalls calls

end

theorem TraceCall.results_eq (call : TraceCall) : call.results = (call.seq, call.result) :: resultsOfCalls call.calls := by
  cases call
  rw [TraceCall.results]

theorem resultsOfCalls_append (xs ys : List TraceCall) : resultsOfCalls (xs ++ ys) = resultsOfCalls xs ++ resultsOfCalls ys := by
  induction xs with
  | nil => rfl
  | cons x xs ih => rw [List.cons_append, resultsOfCalls, resultsOfCalls, ih, List.append_assoc]

namespace Walk

/-- The results that the walk holds, of closed calls and of open ones. -/
def results (w : Walk) : List (Nat × Option ScDisplay) := resultsOfCalls w.calls ++ resultsOfCalls w.stack

theorem results_pushEvent (w : Walk) (event : TraceEvent) : (w.pushEvent event).results = w.results := by
  obtain ⟨calls, events, metrics, stack, nodes, raised, seq⟩ := w
  cases stack with
  | nil => rfl
  | cons frame callers =>
    simp only [pushEvent, results, resultsOfCalls, TraceCall.results_eq]

/-- A call that is put where the walk stands brings its results. -/
theorem results_pushCall (w : Walk) (call : TraceCall) : (w.pushCall call).results.Perm (call.results ++ w.results) := by
  obtain ⟨calls, events, metrics, stack, nodes, raised, seq⟩ := w
  cases stack with
  | nil =>
    simp only [pushCall, results, resultsOfCalls, resultsOfCalls_append, List.append_nil]
    exact List.perm_append_comm
  | cons frame callers =>
    simp only [pushCall, results, resultsOfCalls, TraceCall.results_eq, resultsOfCalls_append, List.append_nil, List.cons_append,
      List.append_assoc]
    have hfront : ∀ a b c d : List (Nat × Option ScDisplay), (a ++ (b ++ (c ++ d))).Perm (c ++ (a ++ (b ++ d))) := by
      intro a b c d
      rw [← List.append_assoc, ← List.append_assoc a b d, ← List.append_assoc, ← List.append_assoc]
      exact List.perm_append_comm.append_right d
    exact hfront _ ((frame.seq, frame.result) :: resultsOfCalls frame.calls) ((call.seq, call.result) :: resultsOfCalls call.calls) _

end Walk

/-- An event closes a frame with the value that it returns. -/
theorem actionOf_of_closing {e : ContractEvent} {topics : List ScVal} {data : ScVal} (hclosing : frameBracket e = .closing)
    (hbody : e.body = .v0 topics data) : actionOf e = .leave (unlessVoid (displayOf data)) := by
  unfold frameBracket at hclosing
  unfold actionOf
  rw [hbody] at hclosing ⊢
  simp only at hclosing ⊢
  split_ifs at hclosing with htype hcall hreturn
  rw [if_neg htype, if_neg (by rw [hreturn]; decide), if_neg hcall, if_pos hreturn]

theorem closing_of_leave {e : ContractEvent} {result : Option ScDisplay} (h : actionOf e = .leave result) :
    frameBracket e = .closing := by
  unfold actionOf at h
  unfold frameBracket
  cases hbody : e.body with
  | other v =>
    rw [hbody] at h
    cases h
  | v0 topics data =>
    rw [hbody] at h
    simp only at h ⊢
    split_ifs at h with htype hmetrics hcall hreturn
    rw [if_neg htype, if_neg hcall, if_pos hreturn]

/-- A frame that is opened is the node of its event. -/
theorem exists_of_enter {e : ContractEvent} {node : Nat → TraceCall} (h : actionOf e = .enter node) :
    ∃ topics data, nodeOf topics data = node := by
  unfold actionOf at h
  cases hbody : e.body with
  | other v =>
    rw [hbody] at h
    cases h
  | v0 topics data =>
    rw [hbody] at h
    simp only at h
    split_ifs at h
    cases h
    exact ⟨topics, data, rfl⟩

/-- A return sets the result of the innermost open frame, and no other. -/
theorem results_closing {w : Walk} {e : ContractEvent} {frame : TraceCall} {callers : List TraceCall} {topics : List ScVal}
    {data : ScVal} (hstack : w.stack = frame :: callers) (hclosing : frameBracket e = .closing) (hbody : e.body = .v0 topics data) :
    ∃ w' others, walkEvent w e = .ok w' ∧ w.results.Perm ((frame.seq, frame.result) :: others) ∧
      w'.results.Perm ((frame.seq, unlessVoid (displayOf data)) :: others) := by
  have hwalk : walkEvent w e = .ok (w.closeFrame (unlessVoid (displayOf data))) := by
    rw [walkEvent_eq, actionOf_of_closing hclosing hbody, Walk.act]
  refine ⟨_, resultsOfCalls frame.calls ++ (resultsOfCalls w.calls ++ resultsOfCalls callers), hwalk, ?_, ?_⟩
  · rw [Walk.results, hstack, resultsOfCalls, TraceCall.results_eq]
    refine (List.perm_append_comm_assoc _ _ _).trans ?_
    rw [List.cons_append]
  · rw [Walk.closeFrame, hstack]
    refine (Walk.results_pushCall _ _).trans ?_
    rw [TraceCall.results_eq, List.cons_append, Walk.results]

/-- Any other event leaves the results as they are. A call that it opens has none. -/
theorem results_of_not_closing {w w' : Walk} {e : ContractEvent} (hother : frameBracket e ≠ .closing) (h : walkEvent w e = .ok w') :
    ∃ opened, w'.results.Perm (opened ++ w.results) ∧ ∀ r ∈ opened, r = (w.seq, none) := by
  rw [walkEvent_eq] at h
  cases haction : actionOf e with
  | skip =>
    rw [haction] at h
    cases h
    exact ⟨[], List.Perm.refl _, nofun⟩
  | count topics data =>
    rw [haction] at h
    cases h
    exact ⟨[], List.Perm.refl _, nofun⟩
  | raise event =>
    rw [haction, Walk.act] at h
    split_ifs at h
    cases h
    exact ⟨[], List.Perm.of_eq (w.results_pushEvent _), nofun⟩
  | enter node =>
    rw [haction, Walk.act] at h
    split_ifs at h
    cases h
    obtain ⟨topics, data, rfl⟩ := exists_of_enter haction
    refine ⟨[(w.seq, none)], ?_, fun r hr => List.mem_singleton.mp hr⟩
    have hopened : (nodeOf topics data w.seq).results = [(w.seq, none)] := by
      rw [TraceCall.results_eq]
      rfl
    rw [Walk.results, Walk.results, resultsOfCalls, hopened]
    exact List.perm_append_comm_assoc _ _ _
  | leave result => exact absurd (closing_of_leave haction) hother

/-! ## The open frames are the open brackets -/

/-- The functions of the open frames, the innermost first. -/
def Walk.openFunctions (w : Walk) : List JsString := w.stack.map TraceCall.fn

theorem openFunctions_pushEvent (w : Walk) (event : TraceEvent) : (w.pushEvent event).openFunctions = w.openFunctions := by
  unfold Walk.openFunctions Walk.pushEvent
  split
  · rfl
  · next hstack => rw [hstack]; rfl

theorem openFunctions_closeFrame (w : Walk) (result : Option ScDisplay) :
    (w.closeFrame result).openFunctions = w.openFunctions.tail := by
  obtain ⟨calls, events, metrics, stack, nodes, raised, seq⟩ := w
  rcases stack with _ | ⟨frame, _ | ⟨caller, callers⟩⟩ <;> rfl

/-- One round opens and closes frames as its event does brackets. -/
theorem openFunctions_walkEvent {w w' : Walk} {e : ContractEvent} (h : walkEvent w e = .ok w') :
    w'.openFunctions = Bracket.step frameBracket w.openFunctions e := by
  unfold walkEvent at h
  unfold Bracket.step frameBracket
  cases hbody : e.body with
  | other v =>
    rw [hbody] at h
    cases h
    rfl
  | v0 topics data =>
    rw [hbody] at h
    simp only at h ⊢
    by_cases htype : e.type = .contract
    · rw [if_pos htype] at h
      rw [if_pos htype]
      by_cases hcap : maxItems ≤ w.raised
      · rw [if_pos hcap] at h
        cases h
      · rw [if_neg hcap] at h
        split at h
        · cases h
          exact openFunctions_pushEvent _ _
        · cases h
          rfl
    · rw [if_neg htype] at h
      rw [if_neg htype]
      by_cases hcall : labelOf topics = some fnCallLabel
      · rw [if_neg (by rw [hcall]; decide), if_pos hcall] at h
        rw [if_pos hcall]
        by_cases hcap : maxItems ≤ w.nodes
        · rw [if_pos hcap] at h
          cases h
        · rw [if_neg hcap] at h
          cases h
          rfl
      · rw [if_neg hcall]
        by_cases hreturn : labelOf topics = some fnReturnLabel
        · rw [if_neg (by rw [hreturn]; decide), if_neg hcall, if_pos hreturn] at h
          rw [if_pos hreturn]
          cases h
          exact openFunctions_closeFrame _ _
        · rw [if_neg hreturn]
          rw [if_neg hcall, if_neg hreturn] at h
          split at h
          · cases h
            rfl
          · cases h
            rfl

/-- After a stream, the open frames are those of the brackets that the stream leaves open. -/
theorem openFunctions_run {stream : List ContractEvent} {w w' : Walk} (h : w.run stream = .ok w') :
    w'.openFunctions = stream.foldl (Bracket.step frameBracket) w.openFunctions := by
  induction stream generalizing w with
  | nil =>
    cases h
    rfl
  | cons e es ih =>
    rw [Walk.run_cons] at h
    cases hstep : walkEvent w e with
    | error w₁ =>
      rw [hstep] at h
      cases h
    | ok w₁ =>
      rw [hstep] at h
      rw [ih h, openFunctions_walkEvent hstep, List.foldl_cons]

theorem openFunctions_start {stream : List ContractEvent} {w : Walk} (h : Walk.start.run stream = .ok w) :
    w.openFunctions = Bracket.pending frameBracket stream := openFunctions_run h

/-- The walk goes to the end of a stream exactly within its caps. -/
theorem run_ok_iff {stream : List ContractEvent} :
    (∃ w, Walk.start.run stream = .ok w) ↔ ∀ k, (streamKinds stream).count k ≤ maxItems := by
  constructor
  · rintro ⟨w, hw⟩ k
    by_contra hk
    obtain ⟨w', hw'⟩ := Walk.start.run_stopped (fun k => by rw [taken_start]; exact Nat.zero_le _) (k := k) (by
      rw [taken_start, Nat.zero_add]
      exact not_le.mp hk)
    rw [hw] at hw'
    cases hw'
  · intro hcaps
    obtain ⟨w, hw, -⟩ := Walk.start.run_took fun k => by
      rw [taken_start, Nat.zero_add]
      exact hcaps k
    exact ⟨w, hw⟩

/-- Where every result belongs to the call it is set on, every closed call is closed by a return of its own function. -/
theorem callsAnswered_of_resultsBelong {counts : Option ScDisplay → Prop} {stream : List ContractEvent}
    (h : ResultsBelong counts stream) : CallsAnswered counts stream := by
  intro before call inside e after fn topics data hstream hcall hinside he hbody hcounts hcaps
  obtain ⟨w, hw⟩ := run_ok_iff.mpr hcaps
  have hopen := openFunctions_start hw
  rw [Bracket.pending_eq_cons_iff.mpr ⟨before, call, inside, rfl, hcall, hinside, rfl⟩] at hopen
  cases hstack : w.stack with
  | nil =>
    rw [Walk.openFunctions, hstack] at hopen
    cases hopen
  | cons frame callers =>
    rw [Walk.openFunctions, hstack, List.map_cons] at hopen
    rw [← (List.cons.inj hopen).1]
    exact h _ e after w frame callers topics data hstream hw hstack he hbody hcounts

/-- Where every closed call is closed by a return of its own function, every result belongs to the call it is set on. -/
theorem resultsBelong_of_callsAnswered {counts : Option ScDisplay → Prop} {stream : List ContractEvent}
    (h : CallsAnswered counts stream) : ResultsBelong counts stream := by
  intro before e after w frame callers topics data hstream hw hstack he hbody hcounts
  have hopen := openFunctions_start hw
  rw [Walk.openFunctions, hstack, List.map_cons] at hopen
  obtain ⟨first, call, inside, rfl, hcall, hinside, -⟩ := Bracket.pending_eq_cons_iff.mp hopen.symm
  exact h first call inside e after frame.fn topics data hstream hcall hinside he hbody hcounts (run_ok_iff.mp ⟨w, hw⟩)

/-- Every result belongs to the call it is set on exactly when every closed call is closed by a return of its own function, for
every stream and whatever values count as a result. -/
theorem resultsBelong_iff (counts : Option ScDisplay → Prop) (stream : List ContractEvent) :
    ResultsBelong counts stream ↔ CallsAnswered counts stream :=
  ⟨callsAnswered_of_resultsBelong, resultsBelong_of_callsAnswered⟩

/-! ## A call that traps -/

/-- The contract calls `f`, which calls `g`, which traps; `f` returns the number seven. -/
def trappedCall : List ContractEvent :=
  [⟨none, .diagnostic, .v0 [.symbol fnCallSymbol, .bytes Bytes32.zero.bytes, .symbol [102]] .void⟩,
   ⟨none, .diagnostic, .v0 [.symbol fnCallSymbol, .bytes Bytes32.zero.bytes, .symbol [103]] .void⟩,
   ⟨none, .diagnostic, .v0 [.symbol fnReturnSymbol, .symbol [102]] (.u32 7)⟩]

/-- The tree shows the result of `f` on `g`, and none on `f`. -/
theorem trappedCall_result :
    ((walkDiagnostics trappedCall).calls.map fun f => (f.fn, f.result.isSome, f.calls.map fun g => (g.fn, g.result.isSome))) =
        [(js ['f'], false, [(js ['g'], true)])] ∧
      ¬ResultsBelong (fun value => value.isSome) trappedCall := by
  refine ⟨by decide +kernel, fun hbelong => ?_⟩
  have h := callsAnswered_of_resultsBelong hbelong
  have hcaps : ∀ k, (streamKinds (trappedCall.take 2)).count k ≤ maxItems := by
    intro k
    cases k <;> decide +kernel
  have hname := h (trappedCall.take 1)
    ⟨none, .diagnostic, .v0 [.symbol fnCallSymbol, .bytes Bytes32.zero.bytes, .symbol [103]] .void⟩ []
    ⟨none, .diagnostic, .v0 [.symbol fnReturnSymbol, .symbol [102]] (.u32 7)⟩ [] (js ['g']) _ _ rfl (by decide +kernel) rfl
    (by decide +kernel) rfl (by decide +kernel) hcaps
  exact absurd hname (by decide +kernel)

end Soroscan

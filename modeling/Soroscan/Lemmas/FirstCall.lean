import Soroscan.Lemmas.StreamItems

/-!
# The first call of a trace

The first call of the tree is the first event that opens one, unless the walk stops before. Its callee is read from the topics of
that event.
-/

namespace Soroscan

/-! ## Strkeys as shown -/

theorem Base32.digit_lt {n : Nat} (h : n < 32) : (Base32.digit n).toNat < 128 := by
  interval_cases n <;> decide

/-- A strkey is shown as it is. -/
theorem charsOf_js_strkey (version : UInt8) (payload : Bytes) :
    charsOf (js (encodeStrkey version payload)) = encodeStrkey version payload := by
  refine charsOf_js fun c hc => ?_
  obtain ⟨n, hn, rfl⟩ := List.mem_map.mp hc
  have := Base32.digit_lt (Base32.values_lt _ n hn)
  omega

/-- Strkeys that are shown alike have the same version and the same bytes. -/
theorem js_strkey_injective {v v' : UInt8} {p p' : Bytes} (h : js (encodeStrkey v p) = js (encodeStrkey v' p')) :
    v = v' ∧ p ++ crcBytes (crc16 (v :: p)) = p' ++ crcBytes (crc16 (v' :: p')) := by
  have htext : encodeStrkey v p = encodeStrkey v' p' := by rw [← charsOf_js_strkey v p, h, charsOf_js_strkey]
  exact List.cons_eq_cons.mp (Base32.encode_injective htext)

theorem js_contractStrkey_injective {a b : Bytes32} (h : js (contractStrkey a) = js (contractStrkey b)) : a = b := by
  refine contractStrkey_injective ?_
  rw [contractStrkey, contractStrkey, ← charsOf_js_strkey, ← charsOf_js_strkey strkeyVersionContract b.bytes]
  exact congrArg charsOf h

/-! ## What the trace reads of a callee -/

/-- An address is shown as a contract when it is that contract. -/
theorem js_addressString_eq_iff (a : ScAddress) (id : Bytes32) :
    js (addressString a) = js (contractStrkey id) ↔ a = .contract id := by
  constructor
  · intro h
    cases a with
    | contract other => rw [js_contractStrkey_injective h]
    | account _ => exact absurd (js_strkey_injective h).1 (by decide)
    | muxed _ _ => exact absurd (js_strkey_injective h).1 (by decide)
    | claimableBalance _ => exact absurd (js_strkey_injective h).1 (by decide)
    | liquidityPool _ => exact absurd (js_strkey_injective h).1 (by decide)
  · rintro rfl
    rfl

/-- The text after the first two characters of what is shown of a byte string. -/
theorem drop_shownBytes (b : Bytes) : ∃ rest : Text, charsOf ((js (shownBytes b)).drop 2) = rest ∧
    (b.length ≤ 32 → rest.length = 2 * b.length) ∧ (32 < b.length → rest.length = 67) := by
  unfold shownBytes
  split_ifs with hlen
  · refine ⟨hexText b, ?_, fun _ => hexText_length b, fun h => absurd h (by omega)⟩
    rw [js_append]
    exact charsOf_js_hexText b
  · refine ⟨hexText (b.take 16) ++ (['.', '.', '.'] ++ hexText (b.drop (b.length - 16))), ?_, fun h => absurd h hlen, fun _ => ?_⟩
    · rw [List.append_assoc, List.append_assoc, js_append]
      refine charsOf_js fun c hc => ?_
      rcases List.mem_append.mp hc with hc | hc
      · exact toNat_lt_of_mem_hexText hc
      · rcases List.mem_append.mp hc with hc | hc
        · have hdot : c = '.' := by simpa using hc
          rw [hdot]
          decide
        · exact toNat_lt_of_mem_hexText hc
    · simp only [List.length_append, hexText_length, List.length_take, List.length_drop, List.length_cons, List.length_nil]
      omega

/-- A byte string is read as a contract when it is its id. -/
theorem contractOf_bytes_iff {b : Bytes} (hb : (ScVal.bytes b).Sized) (id : Bytes32) :
    contractOf (displayOf (.bytes b)) = some (js (contractStrkey id)) ↔ b = id.bytes := by
  constructor
  · intro h
    by_cases hlen : b.length = 32
    · rw [contractOf_displayOf ⟨b, hlen⟩] at h
      rw [← js_contractStrkey_injective (Option.some.inj h)]
    · -- what is shown of a shorter or longer byte string has not 64 digits
      obtain ⟨rest, hrest, hshort, hlong⟩ := drop_shownBytes b
      have hne : ¬(rest.length = 64 ∧ rest.all isHexDigit = true) := by
        rintro ⟨hrest, -⟩
        rcases Nat.lt_or_ge 32 b.length with hgt | hle
        · have := hlong hgt
          omega
        · have := hshort hle
          omega
      rw [displayOf_eq hb, ScVal.shown_leaf maxDepth rfl rfl, ScVal.display, ScReader.text, contractOf, hrest, if_neg hne] at h
      cases h
  · rintro rfl
    exact contractOf_displayOf id

/-- A topic is read as a contract when it is its id or its address. -/
theorem contractOf_displayOf_iff {topic : ScVal} (ht : topic.Sized) (id : Bytes32) :
    contractOf (displayOf topic) = some (js (contractStrkey id)) ↔ topic = .bytes id.bytes ∨ topic = .address (.contract id) := by
  cases topic with
  | bytes b =>
    rw [contractOf_bytes_iff ht]
    simp
  | address a =>
    rw [displayOf_eq ht, ScVal.shown_leaf maxDepth rfl rfl]
    simp [ScVal.display, contractOf, js_addressString_eq_iff]
  | symbol s =>
    rw [displayOf_eq ht, ScVal.shown_symbol]
    split_ifs <;> simp [contractOf]
  | vec items =>
    rw [displayOf_eq ht]
    cases items <;> (unfold ScVal.shown; split_ifs <;> simp [ScVal.display, contractOf])
  | map entries =>
    rw [displayOf_eq ht]
    cases entries <;> (unfold ScVal.shown; split_ifs <;> simp [ScVal.display, contractOf])
  | _ =>
    rw [displayOf_eq ht]
    unfold ScVal.shown
    split_ifs <;> simp [ScVal.display, ScReader.text, contractOf]

/-- The function a topic names: a symbol that is valid and not empty. -/
def ScVal.functionName : ScVal → Option Bytes
  | .symbol s => if ScReader.validSymbol s = true ∧ s ≠ [] then some s else none
  | _ => none

theorem decodeScSymbol_displayOf {topic : ScVal} (ht : topic.Sized) :
    decodeScSymbol topic.b64 = topic.functionName.map ScReader.fromCharCode := by
  have hsymbol : decodeScSymbol topic.b64 =
      (symbolOf (displayOf topic)).bind fun text => if text = [] then none else some text := by
    unfold decodeScSymbol symbolOf displayOf
    split <;> simp_all
  rw [hsymbol, symbolOf_displayOf ht]
  cases topic with
  | symbol s =>
    have hnil : ScReader.fromCharCode s = [] ↔ s = [] := List.map_eq_nil_iff
    rw [ScVal.symbolText, ScVal.functionName]
    by_cases hvalid : ScReader.validSymbol s = true
    · by_cases hne : s = []
      · rw [if_pos hvalid, if_neg (fun h => h.2 hne), Option.bind_some, if_pos (hnil.mpr hne)]
        rfl
      · rw [if_pos hvalid, if_pos ⟨hvalid, hne⟩, Option.bind_some, if_neg (mt hnil.mp hne)]
        rfl
    · rw [if_neg hvalid, if_neg (fun h => hvalid h.1)]
      rfl
  | _ => rfl

/-- The function that the topics of an event name, and the name the trace has for it otherwise. -/
def calledName (topics : List ScVal) : Bytes := (topics[2]?.bind ScVal.functionName).getD [117, 110, 107, 110, 111, 119, 110]

/-- The callee as the trace shows it. -/
def TraceCall.callee (call : TraceCall) : Option JsString × JsString := (call.contract, call.fn)

/-- The callee that an event opens a call of. -/
def calleeOf (topics : List ScVal) : Option JsString × JsString :=
  (contractOf (topics[1]?.bind displayOf), (topics[2]?.bind fun topic => decodeScSymbol topic.b64).getD unknownName)

@[simp] theorem callee_nodeOf (topics : List ScVal) (data : ScVal) (seq : Nat) :
    (nodeOf topics data seq).callee = calleeOf topics := rfl

/-- The topics of an event name a contract, by its id or its address, and a function. -/
def NamesCallee (topics : List ScVal) (id : Bytes32) (name : Bytes) : Prop :=
  (topics[1]? = some (.bytes id.bytes) ∨ topics[1]? = some (.address (.contract id))) ∧ calledName topics = name

/-- The callee is a contract and a function when the topics name them. -/
theorem calleeOf_eq_iff {topics : List ScVal} (htopics : ∀ topic ∈ topics, topic.Sized) (id : Bytes32) (name : Bytes) :
    calleeOf topics = (some (js (contractStrkey id)), ScReader.fromCharCode name) ↔ NamesCallee topics id name := by
  have hcontract : contractOf (topics[1]?.bind displayOf) = some (js (contractStrkey id)) ↔
      topics[1]? = some (.bytes id.bytes) ∨ topics[1]? = some (.address (.contract id)) := by
    cases h : topics[1]? with
    | none => simp [contractOf]
    | some topic =>
      rw [Option.bind_some, contractOf_displayOf_iff (htopics topic (List.mem_of_getElem? h)), Option.some.injEq,
        Option.some.injEq]
  have hfn : (topics[2]?.bind fun topic => decodeScSymbol topic.b64).getD unknownName =
      ScReader.fromCharCode (calledName topics) := by
    unfold calledName
    cases h : topics[2]? with
    | none => rfl
    | some topic =>
      rw [Option.bind_some, Option.bind_some, decodeScSymbol_displayOf (htopics topic (List.mem_of_getElem? h))]
      cases topic.functionName <;> rfl
  rw [calleeOf, Prod.mk.injEq, hcontract, hfn]
  exact and_congr_right fun _ => ⟨fun h => fromCharCode_injective h, fun h => congrArg _ h⟩

/-! ## The first root call of the walk -/

namespace Walk

/-- The callee of the first root call so far. -/
def root (w : Walk) : Option (Option JsString × JsString) :=
  (w.calls.map TraceCall.callee).head?.or (w.stack.map TraceCall.callee).getLast?

/-- Nesting the open frames leaves the outermost one. -/
theorem head?_nest (stack init : List TraceCall) :
    ((stack.foldl (fun inner frame => [{ frame with calls := frame.calls ++ inner }]) init).map TraceCall.callee).head? =
      (stack.map TraceCall.callee).getLast?.or (init.map TraceCall.callee).head? := by
  induction stack generalizing init with
  | nil => rfl
  | cons frame stack ih =>
    rw [List.foldl_cons, ih, List.map_cons, List.map_nil, List.map_cons, List.getLast?_cons]
    cases (stack.map TraceCall.callee).getLast? <;> rfl

/-- The first root call of the tree that the walk returns. -/
theorem root_result (w : Walk) (truncated : Bool) :
    ((w.result truncated).calls.map TraceCall.callee).head? = w.root := by
  rw [result, List.map_append, List.head?_append, nest, head?_nest]
  simp [root]

theorem root_pushEvent (w : Walk) (event : TraceEvent) : (w.pushEvent event).root = w.root := by
  obtain ⟨calls, events, metrics, stack, nodes, raised, seq⟩ := w
  cases stack <;> rfl

/-- A frame that returns stays the first root call if it was. -/
theorem root_closeFrame (w : Walk) (result : Option ScDisplay) : (w.closeFrame result).root = w.root := by
  obtain ⟨calls, events, metrics, stack, nodes, raised, seq⟩ := w
  cases stack with
  | nil => rfl
  | cons frame callers =>
    cases callers with
    | nil =>
      simp only [closeFrame, pushCall, root, List.map_append, List.head?_append]
      cases (calls.map TraceCall.callee).head? <;> rfl
    | cons caller callers =>
      simp only [closeFrame, pushCall, root, List.map_cons, List.getLast?_cons_cons]
      rfl

end Walk

/-! ## The event that opens it -/

/-- An event that a contract raised. -/
def ContractEvent.raised (e : ContractEvent) : Bool :=
  match e.body with
  | .v0 _ _ => decide (e.type = .contract)
  | .other _ => false

/-- The topics of an event of the host that reports a call. -/
def ContractEvent.opens (e : ContractEvent) : Option (List ScVal) :=
  match e.body with
  | .v0 (.symbol label :: topics) _ =>
    if e.type ≠ .contract ∧ label = fnCallSymbol then some (.symbol label :: topics) else none
  | _ => none

theorem ContractEvent.body_of_opens {e : ContractEvent} {topics : List ScVal} (h : e.opens = some topics) :
    ∃ data, e.body = .v0 topics data := by
  unfold ContractEvent.opens at h
  split at h
  next label rest data hbody =>
    split_ifs at h with hopens
    cases h
    exact ⟨data, hbody⟩
  next => cases h

/-- The topics of the first event of the host that reports a call, unless the walk stops at too many raised events before it. -/
def firstCall : Nat → List ContractEvent → Option (List ScVal)
  | _, [] => none
  | raised, e :: es =>
    if e.raised then if maxItems ≤ raised then none else firstCall (raised + 1) es
    else
      match e.opens with
      | some topics => some topics
      | none => firstCall raised es

/-- What an event asks of the walk, as far as the first call goes. -/
theorem actionOf_cases {e : ContractEvent} (hsized : e.Sized) :
    (e.raised = true ∧ ∃ event, actionOf e = .raise event) ∨
    (e.raised = false ∧ ∃ topics data, e.opens = some topics ∧ actionOf e = .enter (nodeOf topics data)) ∨
    (e.raised = false ∧ e.opens = none ∧ ∀ w : Walk, ∃ w', w.act (actionOf e) = .ok w' ∧ w'.root = w.root ∧
      w'.nodes = w.nodes ∧ w'.raised = w.raised) := by
  obtain ⟨contractId, type, body⟩ := e
  cases body with
  | other v => exact Or.inr (Or.inr ⟨rfl, rfl, fun w => ⟨w, rfl, rfl, rfl, rfl⟩⟩)
  | v0 topics data =>
    obtain ⟨htopics, -⟩ := hsized topics data rfl
    by_cases htype : type = .contract
    · subst htype
      exact Or.inl ⟨rfl, _, rfl⟩
    · right
      have hraised : ContractEvent.raised ⟨contractId, type, .v0 topics data⟩ = false := decide_eq_false htype
      by_cases hlabel : labelOf topics = some fnCallLabel
      · left
        have hmetrics : fnCallLabel ≠ coreMetricsLabel := by decide
        refine ⟨hraised, topics, data, ?_, ?_⟩
        · cases topics with
          | nil => cases hlabel
          | cons topic topics =>
            have htopic := (@labelOf_cons_iff topic topics (htopics topic List.mem_cons_self) fnCallSymbol (by decide)).mp hlabel
            subst htopic
            exact if_pos ⟨htype, rfl⟩
        · simp only [actionOf, if_neg htype, hlabel, Option.some.injEq, hmetrics, if_false, if_true]
      · right
        refine ⟨hraised, ?_, fun w => ?_⟩
        · unfold ContractEvent.opens
          split
          next label topics' _ heq =>
            cases heq
            refine if_neg fun h => hlabel ?_
            exact (@labelOf_cons_iff (.symbol label) topics' (htopics _ List.mem_cons_self) fnCallSymbol (by decide)).mpr
              (congrArg ScVal.symbol h.2)
          next => rfl
        · simp only [actionOf, if_neg htype, if_neg hlabel]
          split_ifs
          · exact ⟨_, rfl, rfl, rfl, rfl⟩
          · have htaken := (closeFrame_counts w (unlessVoid (displayOf data))).2.1
            exact ⟨_, rfl, Walk.root_closeFrame w _, congrFun htaken .call, congrFun htaken .event⟩
          · exact ⟨w, rfl, rfl, rfl, rfl⟩

/-- The topics of the first call are those of an event of the stream. -/
theorem exists_of_firstCall {stream : List ContractEvent} {raised : Nat} {topics : List ScVal}
    (h : firstCall raised stream = some topics) : ∃ e ∈ stream, e.opens = some topics := by
  induction stream generalizing raised with
  | nil => cases h
  | cons e es ih =>
    rw [firstCall] at h
    split_ifs at h with hraised hroom
    · obtain ⟨e', he', hopens⟩ := ih h
      exact ⟨e', List.mem_cons_of_mem _ he', hopens⟩
    · cases hopens : e.opens with
      | some topics' =>
        rw [hopens] at h
        exact ⟨e, List.mem_cons_self, hopens.trans h⟩
      | none =>
        rw [hopens] at h
        obtain ⟨e', he', hopens'⟩ := ih h
        exact ⟨e', List.mem_cons_of_mem _ he', hopens'⟩

/-- Once the walk has a root call, it keeps it; until then, the first call becomes it. -/
theorem root_run {stream : List ContractEvent} (hsized : ∀ e ∈ stream, e.Sized) {w : Walk}
    (hroom : w.root = none → w.nodes < maxItems) : ∃ w', (w.run stream = .ok w' ∨ w.run stream = .error w') ∧
      w'.root = w.root.or ((firstCall w.raised stream).map calleeOf) := by
  induction stream generalizing w with
  | nil => exact ⟨w, Or.inl rfl, (Option.or_none).symm⟩
  | cons e es ih =>
    obtain ⟨he, hes⟩ := List.forall_mem_cons.mp hsized
    rw [Walk.run_cons, walkEvent_eq, firstCall]
    rcases actionOf_cases he with ⟨hraised, event, haction⟩ | ⟨hraised, topics, data, hopens, haction⟩ | ⟨hraised, hopens, hact⟩
    · rw [haction, Walk.act, if_pos hraised]
      by_cases hmax : maxItems ≤ w.raised
      · rw [if_pos hmax, if_pos hmax]
        exact ⟨w, Or.inr rfl, (Option.or_none).symm⟩
      · rw [if_neg hmax, if_neg hmax]
        have hroot := Walk.root_pushEvent w (event w.seq)
        have hnodes := (pushEvent_counts w (event w.seq)).1
        obtain ⟨w', hrun, hw'⟩ := @ih hes { w.pushEvent (event w.seq) with raised := w.raised + 1, seq := w.seq + 1 }
          fun hnone => hnodes ▸ hroom (hroot ▸ hnone)
        exact ⟨w', hrun, hroot ▸ hw'⟩
    · have hnot : ¬e.raised = true := Bool.eq_false_iff.mp hraised
      rw [haction, Walk.act, if_neg hnot, hopens]
      by_cases hmax : maxItems ≤ w.nodes
      · rw [if_pos hmax]
        refine ⟨w, Or.inr rfl, ?_⟩
        cases hroot : w.root with
        | none => exact absurd (hroom hroot) (by omega)
        | some callee => rfl
      · rw [if_neg hmax]
        have hroot : Walk.root { w with nodes := w.nodes + 1, stack := nodeOf topics data w.seq :: w.stack, seq := w.seq + 1 } =
            w.root.or (some (calleeOf topics)) := by
          rw [Walk.root, Walk.root, List.map_cons, List.getLast?_cons, callee_nodeOf]
          cases (w.calls.map TraceCall.callee).head? <;> cases (w.stack.map TraceCall.callee).getLast? <;> rfl
        obtain ⟨w', hrun, hw'⟩ := @ih hes _ (fun hnone => by
          rw [hroot] at hnone
          cases hw : w.root <;> rw [hw] at hnone <;> cases hnone)
        refine ⟨w', hrun, ?_⟩
        rw [hw', hroot]
        cases w.root <;> rfl
    · obtain ⟨w₁, hok, hroot, hnodes, hraised₁⟩ := hact w
      have hnot : ¬e.raised = true := Bool.eq_false_iff.mp hraised
      rw [hok, if_neg hnot, hopens]
      obtain ⟨w', hrun, hw'⟩ := @ih hes w₁ fun hnone => hnodes ▸ hroom (hroot ▸ hnone)
      refine ⟨w', hrun, ?_⟩
      rw [hw', hroot, hraised₁]

/-- The first root call of the tree is the first call of the stream. -/
theorem root_walkDiagnostics {stream : List ContractEvent} (hsized : ∀ e ∈ stream, e.Sized) :
    ((walkDiagnostics stream).calls.map TraceCall.callee).head? = (firstCall 0 stream).map calleeOf := by
  obtain ⟨w', hrun, hroot⟩ := @root_run stream hsized Walk.start fun _ => by decide
  have hresult : ∃ truncated, walkDiagnostics stream = w'.result truncated := by
    unfold walkDiagnostics
    rcases hrun with hrun | hrun
    · exact ⟨false, by rw [show stream.foldlM walkEvent Walk.start = .ok w' from hrun]⟩
    · exact ⟨true, by rw [show stream.foldlM walkEvent Walk.start = .error w' from hrun]⟩
  obtain ⟨truncated, hresult⟩ := hresult
  rw [hresult, Walk.root_result, hroot]
  rfl

end Soroscan

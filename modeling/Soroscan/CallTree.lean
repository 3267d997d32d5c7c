import Soroscan.Format
import Soroscan.Trace

/-!
# The call tree on screen

`call-tree.tsx`: the tree of calls is flattened into rows. A frame's events and its sub-calls are two lists; they are put back
into one order before they are drawn. `token-move.ts` reads the movement out of a token event, which gets a row of its own.
-/

namespace Soroscan

/-- A child of a frame, with its index in its own list. -/
inductive Child where
  | event (event : TraceEvent) (index : Nat)
  | call (call : TraceCall) (index : Nat)

/-- `seq` of a child. -/
def Child.seq : Child → Nat
  | .event e _ => e.seq
  | .call c _ => c.seq

/-- `children` of `flattenCall`: the events and the sub-calls of a frame, sorted by when they happened. -/
def TraceCall.children (call : TraceCall) : List Child :=
  (call.events.mapIdx (fun index event => Child.event event index) ++
    call.calls.mapIdx fun index sub => Child.call sub index).mergeSort fun left right => decide (left.seq ≤ right.seq)

/-! ## Token movements -/

/-- `TokenMove`: a balance that moved, read out of the event that moved it. -/
structure TokenMove where
  sender : Option JsString
  receiver : Option JsString
  amount : JsString
  code : Option JsString
  deriving DecidableEq, Repr

/-- `MOVE_EVENTS`. -/
def moveEvents : List JsString := ["transfer", "mint", "burn", "clawback"].map fun name => js name.toList

/-- `AMOUNT_TYPES`. -/
def amountTypes : List TextType := [.i128, .u128, .i64, .u64, .i32, .u32]

/-- `addressOf`. -/
def moveAddressOf : Option ScDisplay → Option JsString
  | some (.address address) => some address
  | _ => none

/-- `codeOf`: the code of "native", or of "CODE:ISSUER". -/
def moveCodeOf : Option ScDisplay → Option JsString
  | some (.text _ text) =>
    if text = js "native".toList then some (js "XLM".toList)
    else ((text.splitOn (58 : UInt16))[0]?).filter fun code => code ≠ []
  | _ => none

/-- `tokenMove`: what a token event did to somebody's balance. -/
def tokenMove (event : TraceEvent) : Option TokenMove :=
  match (event.topics[0]?.join : Option ScDisplay), event.data with
  | some (.text _ name), some (.text type text) =>
    if moveEvents.contains name && amountTypes.contains type then
      let parties := event.topics.drop 1
      let isMint := name = js "mint".toList
      -- mint and clawback name one counterparty, transfer names two
      let sender := if isMint then none else moveAddressOf parties[0]?.join
      let receiver :=
        if isMint then moveAddressOf parties[0]?.join
        else if name = js "transfer".toList then moveAddressOf parties[1]?.join
        else none
      if sender = none ∧ receiver = none then none
      else some ⟨sender, receiver, formatAmount text 7, moveCodeOf parties.getLast?.join⟩
    else none
  | _, _ => none

/-! ## Rows -/

/-- What the line of a row is drawn from: a `CallSignature`, an `EventSignature` or a `MoveLine`, and so its kind. -/
inductive RowSignature where
  | call (fn : JsString) (args : List (Option ScDisplay)) (result : Option ScDisplay)
  | event (event : TraceEvent)
  | move (move : TokenMove)
  deriving Repr

/-- `TraceRow`. -/
structure TraceRow where
  key : Text
  depth : Nat
  /-- For each ancestor column, whether its branch continues below this row. -/
  guides : List Bool
  lastSibling : Bool
  actor : Option JsString
  target : Option JsString
  signature : RowSignature
  deriving Repr

theorem TraceCall.sizeOf_lt_of_mem_children {call sub : TraceCall} {index : Nat} (h : Child.call sub index ∈ call.children) :
    sizeOf sub < sizeOf call := by
  have hmem : sub ∈ call.calls := by
    rcases List.mem_append.mp (List.mem_mergeSort.mp h) with h | h
    · obtain ⟨i, hi, hevent⟩ := List.mem_mapIdx.mp h
      cases hevent
    · obtain ⟨i, hi, hcall⟩ := List.mem_mapIdx.mp h
      cases hcall
      exact List.getElem_mem hi
  have hsize := List.sizeOf_lt_of_mem hmem
  cases call
  simp only [TraceCall.mk.sizeOf_spec]
  simp only at hsize
  omega

/-- `flattenCall`. -/
def flattenCall (call : TraceCall) (caller : Option JsString) (guides : List Bool) (lastSibling : Bool) (depth : Nat) (key : Text) :
    List TraceRow :=
  let row : TraceRow := ⟨key, depth, guides, lastSibling, caller, call.contract, .call call.fn call.args call.result⟩
  -- a root occupies no column of its own, so it contributes no guide line
  let childGuides := if depth = 0 then [] else guides ++ [!lastSibling]
  row :: call.children.attach.zipIdx.flatMap fun (⟨child, hchild⟩, position) =>
    let last := position + 1 == call.children.length
    match child, hchild with
    | .event event index, _ =>
      ⟨key ++ "-event-".toList ++ decimal index, depth + 1, childGuides, last, event.contract.or call.contract, none, .event event⟩ ::
        ((tokenMove event).map fun move =>
          -- a movement is the event's child, not its sibling
          ⟨key ++ "-move-".toList ++ decimal index, depth + 2, if last then childGuides else childGuides ++ [true], true, none, none,
            .move move⟩).toList
    | .call sub index, _ =>
      flattenCall sub call.contract childGuides last (depth + 1) (key ++ ".".toList ++ decimal index)
termination_by sizeOf call
decreasing_by exact TraceCall.sizeOf_lt_of_mem_children (by assumption)

/-- `flatten`. -/
def flatten (calls : List TraceCall) (invoker : Option JsString) : List TraceRow :=
  calls.zipIdx.flatMap fun (call, index) => flattenCall call invoker [] (index + 1 == calls.length) 0 (decimal index)

end Soroscan

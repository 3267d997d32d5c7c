import Soroscan.CallTree
import Soroscan.Lemmas.Collected

/-!
# The listed order of authorization data

The tree that is put together from the authorization data is drawn by the numbers of its nodes. A sub-invocation is numbered by
its index, but what an entry adds to the host call is numbered by its depth: zero for the root of an entry, one for the
sub-invocations of an entry whose root repeats the host call. So the entries of one call are drawn in their listed order exactly
when no entry of the first kind is listed after one of the second.
-/

namespace Soroscan

mutual

/-- The nodes of a tree, each with everything below it. -/
def TraceCall.subtrees : TraceCall → List TraceCall
  | ⟨contract, fn, args, result, events, calls, seq⟩ =>
    ⟨contract, fn, args, result, events, calls, seq⟩ :: subtreesOfCalls calls

def subtreesOfCalls : List TraceCall → List TraceCall
  | [] => []
  | call :: calls => call.subtrees ++ subtreesOfCalls calls

end

/-- A node whose calls are drawn in the order of its list. -/
def TraceCall.DrawnAsListed (node : TraceCall) : Prop := node.children = node.calls.mapIdx fun index sub => Child.call sub index

/-- In the tree that is put together from an envelope, the children of every frame are drawn in their listed order. -/
def KeepsListedOrder (envelope : TransactionEnvelope) : Prop :=
  ∀ root ∈ walkEnvelope envelope, ∀ node ∈ root.subtrees, node.DrawnAsListed

/-- An entry that adds its sub-invocations to the host call: its root repeats the host call, and there are some. -/
def AddsSubInvocations (root : TraceCall) : AuthorizedInvocation → Prop
  | .mk function subInvocations => repeatsCall root function = true ∧ subInvocations ≠ []

/-- An entry that adds itself to the host call. -/
def AddsItself (root : TraceCall) : AuthorizedInvocation → Prop
  | .mk function _ => repeatsCall root function = false

/-- No entry of a contract call that adds itself is listed after one that adds its sub-invocations. -/
def OperationBody.EntriesInOrder : OperationBody → Prop
  | .invokeHostFunction (.invokeContract call) auth =>
    auth.Pairwise fun entry later => ¬(AddsSubInvocations (callOf call 0) entry ∧ AddsItself (callOf call 0) later)
  | _ => True

/-! ## Drawn by number -/

/-- A node without events is drawn in the order of its list exactly when the numbers of its calls never fall. -/
theorem drawnAsListed_iff {node : TraceCall} (hevents : node.events = []) :
    node.DrawnAsListed ↔ (node.calls.map TraceCall.seq).Pairwise (· ≤ ·) := by
  have hseqs : ((node.calls.mapIdx fun index sub => Child.call sub index).map Child.seq) = node.calls.map TraceCall.seq :=
    List.ext_getElem (by simp) (by simp [Child.seq])
  have hpairwise : ((node.calls.mapIdx fun index sub => Child.call sub index).Pairwise fun a b => decide (a.seq ≤ b.seq) = true) ↔
      (node.calls.map TraceCall.seq).Pairwise (· ≤ ·) := by
    rw [← hseqs, List.pairwise_map]
    simp only [decide_eq_true_eq]
  rw [← hpairwise, TraceCall.DrawnAsListed, TraceCall.children, hevents, List.mapIdx_nil, List.nil_append]
  constructor
  · intro h
    rw [← h]
    refine List.pairwise_mergeSort (fun a b c hab hbc => ?_) (fun a b => ?_) _
    · exact decide_eq_true (le_trans (of_decide_eq_true hab) (of_decide_eq_true hbc))
    · rw [Bool.or_eq_true, decide_eq_true_eq, decide_eq_true_eq]
      exact le_total _ _
  · intro h
    exact List.mergeSort_of_pairwise h

/-! ## The trees of invocations -/

/-- A tree without events in which every node is drawn in the order of its list. -/
def TraceCall.InOrder (call : TraceCall) : Prop := ∀ node ∈ call.subtrees, node.events = [] ∧ node.DrawnAsListed

theorem mem_subtreesOfCalls {calls : List TraceCall} {node : TraceCall} :
    node ∈ subtreesOfCalls calls ↔ ∃ call ∈ calls, node ∈ call.subtrees := by
  induction calls with
  | nil => simp [subtreesOfCalls]
  | cons call calls ih => simp [subtreesOfCalls, ih]

/-- A tree is in order if its root is, and those below it are. -/
theorem inOrder_iff (call : TraceCall) :
    call.InOrder ↔ (call.events = [] ∧ call.DrawnAsListed) ∧ ∀ sub ∈ call.calls, sub.InOrder := by
  obtain ⟨contract, fn, args, result, events, calls, seq⟩ := call
  simp only [TraceCall.InOrder, TraceCall.subtrees, List.forall_mem_cons, mem_subtreesOfCalls]
  refine and_congr_right fun _ => ?_
  constructor
  · intro h sub hsub node hnode
    exact h node ⟨sub, hsub, hnode⟩
  · rintro h node ⟨sub, hsub, hnode⟩
    exact h sub hsub node hnode

/-- The number of a root among its siblings does not matter inside its tree. -/
theorem inOrder_withSeq (call : TraceCall) (seq : Nat) : TraceCall.InOrder { call with seq } ↔ call.InOrder := by
  rw [inOrder_iff, inOrder_iff]
  rfl

theorem events_authNode (function : AuthorizedFunction) (depth : Nat) : (authNode function depth).events = [] := by
  cases function <;> rfl

theorem seq_authNode (function : AuthorizedFunction) (depth : Nat) : (authNode function depth).seq = depth := by
  cases function <;> rfl

/-- Sub-invocations are numbered by their indexes. -/
theorem seqs_fromSubInvocations (depth index : Nat) (subs : List AuthorizedInvocation) :
    ((fromSubInvocations depth index subs).map TraceCall.seq).Pairwise (· ≤ ·) ∧
      ∀ seq ∈ (fromSubInvocations depth index subs).map TraceCall.seq, index ≤ seq := by
  induction subs generalizing index with
  | nil => exact ⟨List.Pairwise.nil, by simp [fromSubInvocations]⟩
  | cons sub subs ih =>
    obtain ⟨hsorted, hle⟩ := ih (index + 1)
    rw [fromSubInvocations]
    cases fromAuthInvocation depth sub with
    | none => exact ⟨hsorted, fun seq hseq => Nat.le_of_succ_le (hle seq hseq)⟩
    | some child =>
      refine ⟨List.pairwise_cons.mpr ⟨fun seq hseq => Nat.le_of_succ_le (hle seq hseq), hsorted⟩, ?_⟩
      exact List.forall_mem_cons.mpr ⟨le_refl _, fun seq hseq => Nat.le_of_succ_le (hle seq hseq)⟩

theorem mem_fromSubInvocations {depth index : Nat} {subs : List AuthorizedInvocation} {child : TraceCall}
    (h : child ∈ fromSubInvocations depth index subs) :
    ∃ sub ∈ subs, ∃ call seq, fromAuthInvocation depth sub = some call ∧ child = { call with seq } := by
  induction subs generalizing index with
  | nil => cases h
  | cons sub subs ih =>
    rw [fromSubInvocations] at h
    cases hcall : fromAuthInvocation depth sub with
    | none =>
      rw [hcall] at h
      obtain ⟨sub', hsub', hchild⟩ := ih h
      exact ⟨sub', List.mem_cons_of_mem _ hsub', hchild⟩
    | some call =>
      rw [hcall] at h
      rcases List.mem_cons.mp h with rfl | h
      · exact ⟨sub, List.mem_cons_self, call, index, hcall, rfl⟩
      · obtain ⟨sub', hsub', hchild⟩ := ih h
        exact ⟨sub', List.mem_cons_of_mem _ hsub', hchild⟩

/-- The tree of an invocation is in order, and is numbered by its depth. -/
theorem inOrder_fromAuthInvocation (invocation : AuthorizedInvocation) :
    ∀ depth call, fromAuthInvocation depth invocation = some call → call.InOrder ∧ call.seq = depth := by
  induction invocation using AuthorizedInvocation.induction with
  | mk function subs ih =>
    intro depth call h
    rw [fromAuthInvocation] at h
    split_ifs at h
    cases h
    refine ⟨(inOrder_iff _).mpr ⟨⟨events_authNode function depth, ?_⟩, ?_⟩, seq_authNode function depth⟩
    · exact (@drawnAsListed_iff { authNode function depth with calls := fromSubInvocations (depth + 1) 0 subs }
        (events_authNode function depth)).mpr (seqs_fromSubInvocations (depth + 1) 0 subs).1
    · intro child hchild
      obtain ⟨sub, hsub, call, seq, hcall, rfl⟩ := mem_fromSubInvocations hchild
      exact (inOrder_withSeq call seq).mpr (ih sub hsub (depth + 1) call hcall).1

/-- An invocation near enough to the root has a tree. -/
theorem exists_fromAuthInvocation {depth : Nat} (hdepth : depth ≤ maxAuthDepth) (invocation : AuthorizedInvocation) :
    ∃ call, fromAuthInvocation depth invocation = some call := by
  obtain ⟨function, subs⟩ := invocation
  rw [fromAuthInvocation, if_neg (not_lt.mpr hdepth)]
  exact ⟨_, rfl⟩

/-- What an entry adds to the host call: itself, numbered zero, or its sub-invocations, all numbered one. -/
theorem authCalls_cases (root : TraceCall) (entry : AuthorizedInvocation) :
    (AddsItself root entry ∧ ¬AddsSubInvocations root entry ∧
      ∃ call, authCalls root entry = [call] ∧ call.InOrder ∧ call.seq = 0) ∨
    (¬AddsItself root entry ∧ (AddsSubInvocations root entry ↔ authCalls root entry ≠ []) ∧
      ∀ call ∈ authCalls root entry, call.InOrder ∧ call.seq = 1) := by
  obtain ⟨function, subs⟩ := entry
  rw [authCalls_eq]
  unfold AddsItself AddsSubInvocations
  dsimp only
  by_cases hrepeats : repeatsCall root function = true
  · rw [if_pos hrepeats]
    refine Or.inr ⟨by simp [hrepeats], ?_, ?_⟩
    · rw [and_iff_right hrepeats, not_iff_not, List.filterMap_eq_nil_iff]
      constructor
      · rintro rfl sub hsub
        cases hsub
      · intro hnone
        refine List.eq_nil_iff_forall_not_mem.mpr fun sub hsub => ?_
        obtain ⟨call, hcall⟩ := exists_fromAuthInvocation (show 1 ≤ maxAuthDepth by decide) sub
        rw [hnone sub hsub] at hcall
        cases hcall
    · intro call hcall
      obtain ⟨sub, -, hsub⟩ := List.mem_filterMap.mp hcall
      exact inOrder_fromAuthInvocation sub 1 call hsub
  · rw [if_neg hrepeats]
    obtain ⟨call, hcall⟩ := exists_fromAuthInvocation (Nat.zero_le maxAuthDepth) (.mk function subs)
    refine Or.inl ⟨Bool.eq_false_iff.mpr hrepeats, fun h => hrepeats h.1, call, ?_, inOrder_fromAuthInvocation _ 0 call hcall⟩
    rw [hcall, Option.toList_some]

/-- The numbers do not fall from what one entry adds to what another adds, unless the first adds sub-invocations and the other
itself. -/
theorem seq_le_iff (root : TraceCall) (entry later : AuthorizedInvocation) :
    (∀ x ∈ authCalls root entry, ∀ y ∈ authCalls root later, x.seq ≤ y.seq) ↔
      ¬(AddsSubInvocations root entry ∧ AddsItself root later) := by
  rcases authCalls_cases root entry with ⟨-, hsubs, x, hx, -, hzero⟩ | ⟨-, hsubs, hone⟩
  · refine iff_of_true ?_ fun h => hsubs h.1
    intro x' hx' y _
    rw [hx, List.mem_singleton] at hx'
    rw [hx', hzero]
    exact Nat.zero_le _
  · rcases authCalls_cases root later with ⟨hitself, -, y, hy, -, hzero⟩ | ⟨hitself, -, hone'⟩
    · rw [and_iff_left hitself, hsubs, not_not]
      constructor
      · intro h
        refine List.eq_nil_iff_forall_not_mem.mpr fun x hx => ?_
        have hle := h x hx y (by rw [hy]; exact List.mem_singleton_self y)
        rw [(hone x hx).2, hzero] at hle
        exact absurd hle (by decide)
      · intro hnil x hx
        rw [hnil] at hx
        cases hx
    · refine iff_of_true ?_ fun h => hitself h.2
      intro x hx y hy
      rw [(hone x hx).2, (hone' y hy).2]

/-- The numbers of what one entry adds are equal. -/
theorem pairwise_authCalls (root : TraceCall) (entry : AuthorizedInvocation) :
    (authCalls root entry).Pairwise fun x y => x.seq ≤ y.seq := by
  rcases authCalls_cases root entry with ⟨-, -, x, hx, -, -⟩ | ⟨-, -, hone⟩
  · rw [hx]
    exact List.pairwise_singleton _ _
  · refine List.pairwise_of_forall_mem_list fun x hx y hy => ?_
    rw [(hone x hx).2, (hone y hy).2]

theorem inOrder_of_mem_authCalls {root : TraceCall} {entry : AuthorizedInvocation} {call : TraceCall}
    (h : call ∈ authCalls root entry) : call.InOrder := by
  rcases authCalls_cases root entry with ⟨-, -, x, hx, hinOrder, -⟩ | ⟨-, -, hone⟩
  · rw [hx, List.mem_singleton] at h
    rw [h]
    exact hinOrder
  · exact (hone call h).1

/-! ## The trees of operations -/

/-- The tree of an operation is in order exactly when its entries are. -/
theorem operationCall_inOrder_iff (operation : OperationBody) :
    (∀ root ∈ operationCall operation, ∀ node ∈ root.subtrees, node.DrawnAsListed) ↔ operation.EntriesInOrder := by
  rcases operation with ⟨⟨call⟩ | _, auth⟩ | _
  · have hroot : (∀ node ∈ TraceCall.subtrees { callOf call 0 with calls := auth.flatMap (authCalls (callOf call 0)) },
        node.DrawnAsListed) ↔
          TraceCall.DrawnAsListed { callOf call 0 with calls := auth.flatMap (authCalls (callOf call 0)) } := by
      constructor
      · intro h
        exact h _ List.mem_cons_self
      · intro h
        have hinOrder : TraceCall.InOrder { callOf call 0 with calls := auth.flatMap (authCalls (callOf call 0)) } := by
          refine (inOrder_iff _).mpr ⟨⟨rfl, h⟩, fun sub hsub => ?_⟩
          obtain ⟨entry, -, hentry⟩ := List.mem_flatMap.mp hsub
          exact inOrder_of_mem_authCalls hentry
        exact fun node hnode => (hinOrder node hnode).2
    rw [show operationCall (.invokeHostFunction (.invokeContract call) auth) = some _ from rfl]
    simp only [Option.mem_some_iff, forall_eq']
    rw [hroot, @drawnAsListed_iff { callOf call 0 with calls := auth.flatMap (authCalls (callOf call 0)) } rfl, List.pairwise_map,
      List.pairwise_flatMap, and_iff_right fun entry _ => pairwise_authCalls _ entry]
    simp only [seq_le_iff]
    rfl
  · exact iff_of_true (fun root hroot => by cases hroot) trivial
  · exact iff_of_true (fun root hroot => by cases hroot) trivial

theorem mem_walkEnvelope_iff {envelope : TransactionEnvelope} {root : TraceCall} :
    root ∈ walkEnvelope envelope ↔ ∃ operation ∈ (innerOperations envelope).getD [], root ∈ operationCall operation :=
  List.mem_filterMap

/-- The children of every frame are drawn in their listed order exactly when, in every contract call of the envelope, no entry
that adds itself is listed after one whose sub-invocations are added. -/
theorem keepsListedOrder_iff (envelope : TransactionEnvelope) :
    KeepsListedOrder envelope ↔ ∀ operation ∈ (innerOperations envelope).getD [], operation.EntriesInOrder := by
  constructor
  · intro h operation hoperation
    exact (operationCall_inOrder_iff operation).mp fun root hroot => h root (mem_walkEnvelope_iff.mpr ⟨operation, hoperation, hroot⟩)
  · intro h root hroot
    obtain ⟨operation, hoperation, hmem⟩ := mem_walkEnvelope_iff.mp hroot
    exact (operationCall_inOrder_iff operation).mpr (h operation hoperation) root hmem

/-! ## A sub-invocation before an entry of its own -/

/-- A call of one function of the zero contract. -/
def callNamed (name : UInt8) : InvokeContractArgs := ⟨.contract Bytes32.zero, [name], []⟩

/-- The host calls `f`. The first entry authorizes `f` with a call of `g` in it, the second authorizes `h`. -/
def rootThenOther : TransactionEnvelope :=
  .v1 [.invokeHostFunction (.invokeContract (callNamed 102))
    [.mk (.contractFn (callNamed 102)) [.mk (.contractFn (callNamed 103)) []], .mk (.contractFn (callNamed 104)) []]]

/-- The tree lists `g` before `h`, and `h` is drawn first. -/
theorem rootThenOther_swapped : ¬KeepsListedOrder rootThenOther := by
  intro h
  have hentries := (operationCall_inOrder_iff _).mp fun root hroot =>
    h root (mem_walkEnvelope_iff.mpr ⟨_, List.mem_cons_self, hroot⟩)
  refine List.rel_of_pairwise_cons hentries List.mem_cons_self ⟨⟨by decide +kernel, List.cons_ne_nil _ _⟩, ?_⟩
  show repeatsCall _ _ = false
  decide +kernel

end Soroscan

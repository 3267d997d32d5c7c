import Soroscan.Lemmas.Trace

/-!
# Forests of calls and their streams

What a transaction did is a forest: calls, and inside them events and further calls in any order. The host writes it down as a
stream, a call as an opening and a closing event around what happened inside. `shownAll` is the forest as the trace shows it,
`beforeAll n` the part of it that was written down before item `n`, and `run_items` says that the walk over the stream builds
one or the other.
-/

namespace Soroscan

/-- One call: its callee, function and arguments, the value its arguments are packed into, and its result. The contract ids are
those the two events carry. -/
structure CallHead where
  contract : Bytes32
  fn : Bytes
  fn_valid : ScReader.validSymbol fn = true
  fn_ne_nil : fn ≠ []
  args : List ScVal
  data : ScVal
  packed : data = .vec (some args) ∨ args = [data] ∧ ∀ items, data ≠ .vec items
  result : ScVal
  callerId : Option Bytes32
  calleeId : Option Bytes32

/-- What happens in a transaction: an event, or a call with what happens inside it. -/
inductive Item where
  | event (contractId : Option Bytes32) (topics : List ScVal) (data : ScVal)
  | call (head : CallHead) (body : List Item)

/-- The two kinds of items. -/
inductive ItemKind where
  | call | event
  deriving DecidableEq

/-- The symbol `fn_return`. -/
def fnReturnSymbol : Bytes := [102, 110, 95, 114, 101, 116, 117, 114, 110]

/-- The event that opens a call. -/
def CallHead.opening (head : CallHead) : ContractEvent where
  contractId := head.callerId
  type := .diagnostic
  body := .v0 [.symbol fnCallSymbol, .bytes head.contract.bytes, .symbol head.fn] head.data

/-- The event that closes a call. -/
def CallHead.closing (head : CallHead) : ContractEvent where
  contractId := head.calleeId
  type := .diagnostic
  body := .v0 [.symbol fnReturnSymbol, .symbol head.fn] head.result

mutual

/-- The events that the host writes down for an item. -/
def Item.emit : Item → List ContractEvent
  | .event contractId topics data => [⟨contractId, .contract, .v0 topics data⟩]
  | .call head body => head.opening :: (emitAll body ++ [head.closing])

/-- The stream of a forest. -/
def emitAll : List Item → List ContractEvent
  | [] => []
  | i :: is => i.emit ++ emitAll is

end

mutual

/-- The kinds of an item and of those inside it, in the order they are written down. -/
def Item.kinds : Item → List ItemKind
  | .event _ _ _ => [.event]
  | .call _ body => .call :: kindsOf body

def kindsOf : List Item → List ItemKind
  | [] => []
  | i :: is => i.kinds ++ kindsOf is

end

/-- The induction over forests: an event, a call after its body, and one item after another. -/
theorem Item.forest_induction {P : Item → Prop} {Q : List Item → Prop}
    (event : ∀ contractId topics data, P (.event contractId topics data)) (call : ∀ head body, Q body → P (.call head body))
    (nil : Q []) (cons : ∀ i is, P i → Q is → Q (i :: is)) : ∀ is, Q is := by
  have hitem : ∀ i, P i := fun i => Item.rec event call nil (fun i is hi his => cons i is hi his) i
  intro is
  induction is with
  | nil => exact nil
  | cons i is ih => exact cons i is (hitem i) ih

/-! ## The forest as it is shown -/

/-- An item as the trace shows it. -/
inductive Shown where
  | event (event : TraceEvent)
  | call (call : TraceCall)

/-- When the item happened. -/
def Shown.seq : Shown → Nat
  | .event e => e.seq
  | .call c => c.seq

/-- The events among the items. -/
def eventsIn (xs : List Shown) : List TraceEvent := xs.filterMap fun
  | .event e => some e
  | .call _ => none

/-- The calls among the items. -/
def callsIn (xs : List Shown) : List TraceCall := xs.filterMap fun
  | .event _ => none
  | .call c => some c

/-- An event as it is shown. -/
def shownEvent (contractId : Option Bytes32) (topics : List ScVal) (data : ScVal) (seq : Nat) : TraceEvent where
  contract := contractId.map fun id => js (contractStrkey id)
  topics := topics.map (ScVal.shown (maxDepth + 1))
  data := data.quiet
  seq

/-- The arguments as they are shown: all of them, or none if the value they are packed into is not shown. -/
def CallHead.shownArgs (head : CallHead) : List (Option ScDisplay) :=
  if head.data.fits (maxDepth + 1) then head.args.map fun v => some v.display else []

/-- A call as it is shown, with what is shown of its body. -/
def CallHead.frame (head : CallHead) (seq : Nat) (result : Option ScDisplay) (body : List Shown) : TraceCall where
  contract := some (js (contractStrkey head.contract))
  fn := ScReader.fromCharCode head.fn
  args := head.shownArgs
  result
  events := eventsIn body
  calls := callsIn body
  seq

mutual

/-- An item as it is shown, the items numbered in the order they are written down. -/
def Item.shown (seq : Nat) : Item → Shown
  | .event contractId topics data => .event (shownEvent contractId topics data seq)
  | .call head body => .call (head.frame seq head.result.quiet (shownAll (seq + 1) body))

/-- The forest as it is shown. -/
def shownAll (seq : Nat) : List Item → List Shown
  | [] => []
  | i :: is => i.shown seq :: shownAll (seq + i.kinds.length) is

end

mutual

/-- The part of an item that was written down before item `n`: a call that was not closed yet has no result. -/
def Item.before (n seq : Nat) : Item → Shown
  | .event contractId topics data => .event (shownEvent contractId topics data seq)
  | .call head body =>
    .call (head.frame seq (if seq + (kindsOf body).length < n then head.result.quiet else none) (beforeAll n (seq + 1) body))

/-- The part of a forest that was written down before item `n`. -/
def beforeAll (n seq : Nat) : List Item → List Shown
  | [] => []
  | i :: is => if seq < n then i.before n seq :: beforeAll n (seq + i.kinds.length) is else []

end

theorem Item.kinds_length_pos (i : Item) : 0 < i.kinds.length := by
  cases i <;> exact Nat.succ_pos _

/-- What was written down before a later item is all of it. -/
theorem beforeAll_of_le {n : Nat} (is : List Item) :
    ∀ seq, seq + (kindsOf is).length ≤ n → beforeAll n seq is = shownAll seq is := by
  induction is using Item.forest_induction (P := fun i => ∀ seq, seq + i.kinds.length ≤ n → i.before n seq = i.shown seq) with
  | event contractId topics data seq h => rfl
  | call head body ih seq h =>
    rw [Item.kinds, List.length_cons] at h
    rw [Item.before, Item.shown, if_pos (by omega), ih _ (by omega)]
  | nil => exact fun _ _ => rfl
  | cons i is hi his =>
    intro seq h
    rw [kindsOf, List.length_append] at h
    have hpos := i.kinds_length_pos
    rw [beforeAll, shownAll, if_pos (by omega), hi _ (by omega), his _ (by omega)]

theorem Item.before_of_le {n seq : Nat} (i : Item) (h : seq + i.kinds.length ≤ n) : i.before n seq = i.shown seq := by
  cases i with
  | event contractId topics data => rfl
  | call head body =>
    rw [Item.kinds, List.length_cons] at h
    rw [Item.before, Item.shown, if_pos (by omega), beforeAll_of_le body _ (by omega)]

/-! ## The caps -/

theorem count_cons_add (k l : ItemKind) (ks : List ItemKind) : (k :: ks).count l = [k].count l + ks.count l :=
  @List.count_append _ _ l [k] ks

/-- The first item past a cap, counted from here on, when so many of each kind came before. -/
def firstPast (taken : ItemKind → Nat) : List ItemKind → Option Nat
  | [] => none
  | k :: ks => if maxItems ≤ taken k then some 0 else (firstPast (fun l => taken l + [k].count l) ks).map Nat.succ

theorem firstPast_append (taken : ItemKind → Nat) (ks ls : List ItemKind) :
    firstPast taken (ks ++ ls) =
      (firstPast taken ks).or ((firstPast (fun k => taken k + ks.count k) ls).map (ks.length + ·)) := by
  induction ks generalizing taken with
  | nil => simp [firstPast]
  | cons k ks ih =>
    have htaken : (fun l => taken l + [k].count l + ks.count l) = fun l => taken l + (k :: ks).count l := by
      funext l
      rw [count_cons_add k l ks, Nat.add_assoc]
    have hindex : (Nat.succ ∘ fun m => ks.length + m) = fun m => (k :: ks).length + m := by
      funext m
      rw [Function.comp, List.length_cons]
      omega
    rw [List.cons_append, firstPast, firstPast]
    split_ifs
    · rfl
    · rw [ih, Option.map_or, Option.map_map, htaken, hindex]

theorem firstPast_lt {taken : ItemKind → Nat} {n : Nat} {ks : List ItemKind} (h : firstPast taken ks = some n) :
    n < ks.length := by
  induction ks generalizing taken n with
  | nil => cases h
  | cons k ks ih =>
    rw [firstPast] at h
    split_ifs at h
    · cases h
      exact Nat.succ_pos _
    · obtain ⟨m, hm, rfl⟩ := Option.map_eq_some_iff.mp h
      exact Nat.succ_lt_succ (ih hm)

/-- Within the caps no item is past one. -/
theorem firstPast_eq_none {taken : ItemKind → Nat} {ks : List ItemKind} (h : ∀ k, taken k + ks.count k ≤ maxItems) :
    firstPast taken ks = none := by
  induction ks generalizing taken with
  | nil => rfl
  | cons k ks ih =>
    have hk := h k
    rw [List.count_cons_self] at hk
    rw [firstPast, if_neg (by omega), ih, Option.map_none]
    intro l
    have hl := h l
    rw [count_cons_add] at hl
    omega

/-- Item `n` is past a cap, and none before it is. -/
def FirstPast (ks : List ItemKind) (n : Nat) : Prop :=
  ∃ k, ks[n]? = some k ∧ (ks.take n).count k = maxItems ∧ ∀ l, (ks.take n).count l ≤ maxItems

theorem firstPast_spec {taken : ItemKind → Nat} {n : Nat} {ks : List ItemKind} (htaken : ∀ k, taken k ≤ maxItems)
    (h : firstPast taken ks = some n) :
    ∃ k, ks[n]? = some k ∧ taken k + (ks.take n).count k = maxItems ∧ ∀ l, taken l + (ks.take n).count l ≤ maxItems := by
  induction ks generalizing taken n with
  | nil => cases h
  | cons k ks ih =>
    rw [firstPast] at h
    split_ifs at h with hk
    · cases h
      exact ⟨k, rfl, le_antisymm (htaken k) hk, htaken⟩
    · obtain ⟨m, hm, rfl⟩ := Option.map_eq_some_iff.mp h
      have htaken' : ∀ l, taken l + [k].count l ≤ maxItems := by
        intro l
        have hl := htaken l
        by_cases hkl : k = l
        · subst hkl
          rw [List.count_singleton_self]
          omega
        · rw [List.count_cons_of_ne hkl, List.count_nil]
          exact hl
      have hcount : ∀ l, taken l + ((k :: ks).take (m + 1)).count l = taken l + [k].count l + (ks.take m).count l := by
        intro l
        rw [List.take_succ_cons, count_cons_add k l, Nat.add_assoc]
      obtain ⟨k', hk', heq, hle⟩ := ih htaken' hm
      exact ⟨k', hk', (hcount k').trans heq, fun l => (hcount l).trans_le (hle l)⟩

/-- Past the caps there is a first item past one. -/
theorem exists_firstPast {ks : List ItemKind} {k : ItemKind} (h : maxItems < ks.count k) :
    ∃ n, firstPast (fun _ => 0) ks = some n ∧ FirstPast ks n := by
  cases hn : firstPast (fun _ => 0) ks with
  | some n =>
    refine ⟨n, rfl, ?_⟩
    have := firstPast_spec (fun _ => Nat.zero_le _) hn
    simp only [Nat.zero_add] at this
    exact this
  | none =>
    have hnone : ∀ (ks : List ItemKind) (taken : ItemKind → Nat), firstPast taken ks = none → k ∈ ks →
        taken k + ks.count k ≤ maxItems := by
      intro ks
      induction ks with
      | nil => exact fun _ _ h => absurd h List.not_mem_nil
      | cons k' ks ih =>
        intro taken hnone hmem
        rw [firstPast] at hnone
        split_ifs at hnone with hle
        have hrest := ih _ (Option.map_eq_none_iff.mp hnone)
        rw [count_cons_add k', ← Nat.add_assoc]
        by_cases hin : k ∈ ks
        · exact hrest hin
        · rw [List.count_eq_zero_of_not_mem hin]
          rcases List.mem_cons.mp hmem with rfl | hmem
          · rw [List.count_singleton_self]
            omega
          · exact absurd hmem hin
    have hmem : k ∈ ks := List.count_pos_iff.mp (by omega)
    have := hnone ks _ hn hmem
    omega

end Soroscan

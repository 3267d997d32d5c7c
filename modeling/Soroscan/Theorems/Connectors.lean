import Mathlib.Data.List.GetD
import Soroscan.CallTree
import Soroscan.Lib.Outline

/-!
# Connectors are drawn where a branch goes on

The rows of the call tree are the rows of an outline: a call with its events and sub-calls under it, an event with its movement under
it. So each row carries a line on a level when a later row of the list goes on with the branch there, and ends its own branch when
none does. The keys of the rows spell out the path to each, and no two are the same.
-/

namespace Soroscan

open Outline

/-- A line on a level beside a row: its own branch goes on, or one it is under. -/
def TraceRow.carries (row : TraceRow) (level : Nat) : Bool :=
  if level + 1 = row.depth then !row.lastSibling else row.guides.getD level false

/-! ## One child of a call -/

/-- The rows of a child of a call. -/
def drawChild (call : TraceCall) (guides : List Bool) (depth : Nat) (key : Text) (last : Bool) : Child → List TraceRow
  | .event event index =>
    ⟨key ++ "-event-".toList ++ decimal index, depth + 1, guides, last, event.contract.or call.contract, none, .event event⟩ ::
      ((tokenMove event).map fun move =>
        ⟨key ++ "-move-".toList ++ decimal index, depth + 2, if last then guides else guides ++ [true], true, none, none,
          .move move⟩).toList
  | .call sub index => flattenCall sub call.contract guides last (depth + 1) (key ++ ".".toList ++ decimal index)

/-- The lines above the children of a call. -/
def childGuides (guides : List Bool) (lastSibling : Bool) (depth : Nat) : List Bool :=
  if depth = 0 then [] else guides ++ [!lastSibling]

/-- The rows of a call are its own and those of its children, one after the other. -/
theorem flattenCall_eq (call : TraceCall) (caller : Option JsString) (guides : List Bool) (lastSibling : Bool) (depth : Nat)
    (key : Text) :
    flattenCall call caller guides lastSibling depth key =
      ⟨key, depth, guides, lastSibling, caller, call.contract, .call call.fn call.args call.result⟩ ::
        call.children.zipIdx.flatMap fun p =>
          drawChild call (childGuides guides lastSibling depth) depth key (p.2 + 1 == call.children.length) p.1 := by
  have hattach : call.children.zipIdx = call.children.attach.zipIdx.map (Prod.map Subtype.val id) := by
    rw [← List.zipIdx_map, List.attach_map_subtype_val]
  rw [flattenCall, hattach, List.flatMap_map]
  refine congrArg₂ List.cons rfl (congrArg (fun f => List.flatMap f call.children.attach.zipIdx) (funext fun p => ?_))
  obtain ⟨⟨child, hchild⟩, position⟩ := p
  cases child with
  | event event index => rfl
  | call sub index => rfl

theorem length_childGuides {guides : List Bool} {depth : Nat} (hlength : guides.length = depth - 1) (lastSibling : Bool) :
    (childGuides guides lastSibling depth).length = depth := by
  rw [childGuides]
  split
  · rename_i hzero
    rw [hzero]
    rfl
  · rw [List.length_append, hlength, List.length_singleton]
    omega

/-- The children of a call are under the lines it is under, and its own if it has a sibling after it. -/
theorem childGuides_getD {guides : List Bool} {depth : Nat} {lines : Nat → Bool} (hlength : guides.length = depth - 1)
    (hguides : ∀ l, l + 1 < depth → guides.getD l false = lines l) (lastSibling : Bool) :
    ∀ l < depth, (childGuides guides lastSibling depth).getD l false = branch depth lastSibling lines l := by
  intro l hl
  rw [childGuides, if_neg (by omega), branch]
  split
  · rename_i hlast
    rw [List.getD_append_right _ _ _ _ (by omega), show l - guides.length = 0 by omega]
    rfl
  · rw [List.getD_append _ _ _ _ (by omega)]
    exact hguides l (by omega)

/-- A movement is under the line of its event. Under the last child there is none, and no place for one. -/
theorem moveGuides_getD {guides : List Bool} {depth : Nat} {lines : Nat → Bool} (hlength : guides.length = depth)
    (hguides : ∀ l < depth, guides.getD l false = lines l) (last : Bool) :
    ∀ l < depth + 1, (if last then guides else guides ++ [true]).getD l false = branch (depth + 1) last lines l := by
  intro l hl
  rw [branch]
  by_cases hevent : l + 1 = depth + 1
  · obtain rfl : l = depth := Nat.succ_inj.mp hevent
    rw [if_pos rfl]
    cases last with
    | false => exact (List.getD_append_right _ _ _ _ hlength.le).trans (by rw [hlength, Nat.sub_self]; rfl)
    | true => exact List.getD_eq_default _ _ hlength.le
  · have hlt : l < depth := by omega
    rw [if_neg hevent]
    cases last with
    | false => exact (List.getD_append _ _ _ _ (hlength ▸ hlt)).trans (hguides l hlt)
    | true => exact hguides l hlt

/-- An event is a tree: its row, and the movement under it. -/
theorem isTree_event {guides : List Bool} {depth : Nat} {lines : Nat → Bool} (hlength : guides.length = depth)
    (hguides : ∀ l < depth, guides.getD l false = lines l) (call : TraceCall) (key : Text) (last : Bool) (event : TraceEvent)
    (index : Nat) :
    IsTree TraceRow.depth TraceRow.carries (depth + 1) last lines (drawChild call guides depth key last (.event event index)) := by
  refine ⟨_, _, rfl, rfl, fun l hl => ?_, ?_⟩
  · rw [TraceRow.carries, branch]
    split
    · rfl
    · rename_i hinner
      exact hguides l (Nat.lt_of_le_of_ne (Nat.le_of_lt_succ hl) fun heq => hinner (congrArg Nat.succ heq))
  · cases tokenMove event with
    | none => exact .nil _ _
    | some move =>
      refine .cons _ [] [] rfl (fun l hl => ?_) (.nil _ _) (.nil _ _)
      rw [branch]
      by_cases hown : l + 1 = depth + 1 + 1
      · rw [if_pos hown]
        exact if_pos hown
      · rw [if_neg hown]
        exact (if_neg hown).trans (moveGuides_getD hlength hguides last l (by omega))

/-! ## The rows of a call -/

/-- A call is a tree: its row, and the trees of its children under it. -/
theorem isTree_flattenCall (call : TraceCall) (caller : Option JsString) {guides : List Bool} {depth : Nat} {lines : Nat → Bool}
    (hlength : guides.length = depth - 1) (hguides : ∀ l, l + 1 < depth → guides.getD l false = lines l) (last : Bool) (key : Text) :
    IsTree TraceRow.depth TraceRow.carries depth last lines (flattenCall call caller guides last depth key) := by
  rw [flattenCall_eq]
  refine ⟨_, _, rfl, rfl, fun l hl => ?_, ?_⟩
  · rw [TraceRow.carries, branch]
    split
    · rfl
    · rename_i hinner
      exact hguides l (Nat.lt_of_le_of_ne hl hinner)
  · have hchildLength := length_childGuides hlength last
    have hchildGuides := childGuides_getD hlength hguides last
    have hchild : ∀ p ∈ call.children.zipIdx, ∀ l, IsTree TraceRow.depth TraceRow.carries (depth + 1) l (branch depth last lines)
        (drawChild call (childGuides guides last depth) depth key l p.1) := by
      intro p hp l
      have hmem : p.1 ∈ call.children := List.fst_mem_of_mem_zipIdx hp
      cases hchild : p.1 with
      | event event index => exact isTree_event hchildLength hchildGuides call key l event index
      | call sub index =>
        have := TraceCall.sizeOf_lt_of_mem_children (hchild ▸ hmem)
        exact isTree_flattenCall sub call.contract hchildLength (fun l hl => hchildGuides l (Nat.lt_of_succ_lt_succ hl)) l _
    have hchildren := siblings_flatMap _ call.children 0 hchild
    rwa [Nat.zero_add] at hchildren
termination_by sizeOf call

theorem siblings_flatten (calls : List TraceCall) (invoker : Option JsString) :
    Siblings TraceRow.depth TraceRow.carries 0 (fun _ => false) (flatten calls invoker) := by
  have hroot : ∀ p ∈ calls.zipIdx, ∀ last, IsTree TraceRow.depth TraceRow.carries 0 last (fun _ => false)
      (flattenCall p.1 invoker [] last 0 (decimal p.2)) :=
    fun p _ last => isTree_flattenCall p.1 invoker rfl (fun _ hl => absurd hl (Nat.not_lt_zero _)) last _
  have hroots := siblings_flatMap (fun last p => flattenCall p.1 invoker [] last 0 (decimal p.2)) calls 0 hroot
  rw [Nat.zero_add] at hroots
  exact hroots

/-- Every row carries the lines that the rows after it ask for. -/
theorem drawn_flatten (calls : List TraceCall) (invoker : Option JsString) :
    Drawn TraceRow.depth TraceRow.carries (flatten calls invoker) [] :=
  (siblings_flatten calls invoker).drawn (fun _ hl => absurd hl (Nat.not_lt_zero _)) fun _ _ => rfl

/-! ## The keys of the rows -/

/-- No digit stands at the front. -/
def NoDigitFirst (t : Text) : Prop := ∀ c, t.head? = some c → c.isDigit = false

/-- A child among the events or the sub-calls of its call. -/
def Child.place : Child → Bool × Nat
  | .event _ index => (false, index)
  | .call _ index => (true, index)

/-- What the key of a row says of the child of a call that it is under: whether it is a sub-call, and its digits. -/
def placeOf (t : Text) : Bool × Text := (t.head? == some '.', (t.dropWhile fun c => !c.isDigit).takeWhile Char.isDigit)

theorem takeWhile_decimal_append (n : Nat) {t : Text} (h : NoDigitFirst t) : (decimal n ++ t).takeWhile Char.isDigit = decimal n := by
  rw [List.takeWhile_append_of_pos fun c hc => isDigit_of_mem_decimal hc]
  cases t with
  | nil => exact List.append_nil _
  | cons c t =>
    have hc : c.isDigit = false := h c rfl
    rw [List.takeWhile_cons_of_neg (by rw [hc]; exact Bool.false_ne_true), List.append_nil]

/-- Marks without digits, and then the digits of a number. -/
theorem placeOf_append {mark : Text} (hmark : mark.all (fun c => !c.isDigit) = true) (hne : mark ≠ []) (n : Nat) {t : Text}
    (h : NoDigitFirst t) : placeOf (mark ++ decimal n ++ t) = (mark.head? == some '.', decimal n) := by
  obtain ⟨d, digits, hdecimal⟩ := List.exists_cons_of_ne_nil (decimal_ne_nil n)
  have hd : d.isDigit = true := isDigit_of_mem_decimal (hdecimal ▸ List.mem_cons_self)
  have hhead : (mark ++ (decimal n ++ t)).head? = mark.head? := by
    rw [List.head?_append]
    cases mark with
    | nil => exact absurd rfl hne
    | cons c mark => rfl
  have hdrop : (mark ++ (decimal n ++ t)).dropWhile (fun c => !c.isDigit) = decimal n ++ t := by
    rw [List.dropWhile_append_of_pos (List.all_eq_true.mp hmark), hdecimal, List.cons_append,
      List.dropWhile_cons_of_neg (by rw [hd]; exact Bool.false_ne_true)]
  rw [List.append_assoc, placeOf, hhead, hdrop, takeWhile_decimal_append n h]

/-- The keys of the rows of a call begin with its own, which ends there or before a mark. -/
theorem key_flattenCall (call : TraceCall) (caller : Option JsString) (guides : List Bool) (last : Bool) (depth : Nat) (key : Text) :
    ∀ row ∈ flattenCall call caller guides last depth key, ∃ t, row.key = key ++ t ∧ NoDigitFirst t := by
  intro row hrow
  rw [flattenCall_eq] at hrow
  rcases List.mem_cons.mp hrow with rfl | hrow
  · exact ⟨[], (List.append_nil _).symm, fun _ hc => nomatch hc⟩
  · obtain ⟨p, hp, hrow⟩ := List.mem_flatMap.mp hrow
    have hmem : p.1 ∈ call.children := List.fst_mem_of_mem_zipIdx hp
    have hmark : ∀ (c : Char) (t : Text), c.isDigit = false → NoDigitFirst (c :: t) := by
      intro c t hc d hd
      rwa [← Option.some.inj hd]
    cases hchild : p.1 with
    | event event index =>
      rw [hchild] at hrow
      rcases List.mem_cons.mp hrow with rfl | hrow
      · exact ⟨_, List.append_assoc _ _ _, hmark '-' _ rfl⟩
      · obtain ⟨move, -, rfl⟩ := Option.map_eq_some_iff.mp (Option.mem_toList.mp hrow)
        exact ⟨_, List.append_assoc _ _ _, hmark '-' _ rfl⟩
    | call sub index =>
      have := TraceCall.sizeOf_lt_of_mem_children (hchild ▸ hmem)
      rw [hchild] at hrow
      obtain ⟨t, hkey, -⟩ := key_flattenCall sub _ _ _ _ _ row hrow
      exact ⟨".".toList ++ decimal index ++ t, by rw [hkey, List.append_assoc, List.append_assoc, List.append_assoc], hmark '.' _ rfl⟩
termination_by sizeOf call

/-- The keys of the rows of a child say which child it is. -/
theorem key_drawChild (call : TraceCall) (guides : List Bool) (depth : Nat) (key : Text) (last : Bool) (child : Child) :
    ∀ row ∈ drawChild call guides depth key last child,
      ∃ t, row.key = key ++ t ∧ t ≠ [] ∧ placeOf t = (child.place.1, decimal child.place.2) := by
  have hplain : ∀ {mark : Text} (n : Nat), mark.all (fun c => !c.isDigit) = true → mark ≠ [] →
      placeOf (mark ++ decimal n) = (mark.head? == some '.', decimal n) := by
    intro mark n hmark hne
    have hplace := placeOf_append hmark hne n (t := []) fun _ hc => nomatch hc
    rwa [List.append_nil] at hplace
  intro row hrow
  cases child with
  | event event index =>
    rcases List.mem_cons.mp hrow with rfl | hrow
    · exact ⟨_, List.append_assoc _ _ _, List.cons_ne_nil _ _, hplain index (by decide) (by decide)⟩
    · obtain ⟨move, -, rfl⟩ := Option.map_eq_some_iff.mp (Option.mem_toList.mp hrow)
      exact ⟨_, List.append_assoc _ _ _, List.cons_ne_nil _ _, hplain index (by decide) (by decide)⟩
  | call sub index =>
    obtain ⟨t, hkey, ht⟩ := key_flattenCall sub _ _ _ _ _ row hrow
    exact ⟨".".toList ++ decimal index ++ t, by rw [hkey, List.append_assoc, List.append_assoc, List.append_assoc],
      List.cons_ne_nil _ _, placeOf_append (by decide) (by decide) index ht⟩

/-- The children of a call are all in different places. -/
theorem nodup_place (call : TraceCall) : (call.children.map Child.place).Nodup := by
  have hperm : call.children.Perm (call.events.mapIdx (fun index event => Child.event event index) ++
      call.calls.mapIdx fun index sub => Child.call sub index) := List.mergeSort_perm _ _
  have hplaces : ∀ {α : Type} (xs : List α) (own : Bool) (child : Nat → α → Child), (∀ i x, (child i x).place = (own, i)) →
      (xs.mapIdx child).map Child.place = (List.range xs.length).map fun i => (own, i) := by
    intro α xs own child hchild
    refine List.ext_getElem (by simp) fun i hi hi' => ?_
    rw [List.getElem_map, List.getElem_mapIdx, hchild, List.getElem_map, List.getElem_range]
  have hnodup : ∀ (n : Nat) (own : Bool), ((List.range n).map fun i => (own, i)).Nodup := fun n own =>
    List.nodup_range.map fun _ _ h => (Prod.mk.inj h).2
  refine (hperm.map Child.place).nodup_iff.mpr ?_
  rw [List.map_append, hplaces call.events false (fun index event => .event event index) fun _ _ => rfl,
    hplaces call.calls true (fun index sub => .call sub index) fun _ _ => rfl]
  refine List.nodup_append.mpr ⟨hnodup _ _, hnodup _ _, fun a ha b hb => ?_⟩
  obtain ⟨i, -, rfl⟩ := List.mem_map.mp ha
  obtain ⟨j, -, rfl⟩ := List.mem_map.mp hb
  exact fun h => absurd (Prod.mk.inj h).1 Bool.false_ne_true

/-- No two rows of a call have one key. -/
theorem nodup_key_flattenCall (call : TraceCall) (caller : Option JsString) (guides : List Bool) (last : Bool) (depth : Nat)
    (key : Text) : ((flattenCall call caller guides last depth key).map TraceRow.key).Nodup := by
  rw [flattenCall_eq, List.map_cons, List.map_flatMap, List.nodup_cons, List.nodup_flatMap]
  refine ⟨fun hmem => ?_, fun p hp => ?_, ?_⟩
  · -- the rows under a call have longer keys
    obtain ⟨p, -, hmem⟩ := List.mem_flatMap.mp hmem
    obtain ⟨row, hrow, hkey⟩ := List.mem_map.mp hmem
    obtain ⟨t, hrowKey, hne, -⟩ := key_drawChild _ _ _ _ _ _ row hrow
    rw [hrowKey] at hkey
    exact hne (List.append_right_eq_self.mp hkey)
  · have hmem : p.1 ∈ call.children := List.fst_mem_of_mem_zipIdx hp
    cases hchild : p.1 with
    | event event index =>
      rw [drawChild]
      cases tokenMove event with
      | none => exact List.nodup_singleton _
      | some move =>
        refine List.nodup_cons.mpr ⟨fun hmem => ?_, List.nodup_singleton _⟩
        have hkey := List.mem_singleton.mp hmem
        rw [List.append_assoc, List.append_assoc] at hkey
        have hletter : some 'e' = some 'm' := congrArg (fun t : Text => t[1]?) (List.append_cancel_left hkey)
        exact absurd hletter (by decide)
    | call sub index =>
      have := TraceCall.sizeOf_lt_of_mem_children (hchild ▸ hmem)
      exact nodup_key_flattenCall sub _ _ _ _ _
  · -- different children are in different places, and the keys say so
    have hplaces := nodup_place call
    rw [← List.zipIdx_map_fst 0 call.children, List.map_map, List.nodup_iff_pairwise_ne, List.pairwise_map] at hplaces
    refine hplaces.imp fun {p q} hne => ?_
    intro k hp hq
    obtain ⟨row, hrow, rfl⟩ := List.mem_map.mp hp
    obtain ⟨row', hrow', hkey⟩ := List.mem_map.mp hq
    obtain ⟨t, hrowKey, -, hplace⟩ := key_drawChild _ _ _ _ _ _ row hrow
    obtain ⟨t', hrowKey', -, hplace'⟩ := key_drawChild _ _ _ _ _ _ row' hrow'
    rw [hrowKey, hrowKey'] at hkey
    rw [List.append_cancel_left hkey, hplace] at hplace'
    obtain ⟨hown, hindex⟩ := Prod.mk.inj hplace'
    exact hne (Prod.ext hown (decimal_injective hindex))
termination_by sizeOf call

theorem nodup_key_flatten (calls : List TraceCall) (invoker : Option JsString) :
    ((flatten calls invoker).map TraceRow.key).Nodup := by
  rw [flatten, List.map_flatMap, List.nodup_flatMap]
  refine ⟨fun p _ => nodup_key_flattenCall p.1 _ _ _ _ _, ?_⟩
  have hindices : (calls.zipIdx.map Prod.snd).Nodup := by
    rw [List.zipIdx_map_snd]
    exact List.nodup_range'
  rw [List.nodup_iff_pairwise_ne, List.pairwise_map] at hindices
  refine hindices.imp fun {p q} hne => ?_
  intro k hp hq
  obtain ⟨row, hrow, rfl⟩ := List.mem_map.mp hp
  obtain ⟨row', hrow', hkey⟩ := List.mem_map.mp hq
  obtain ⟨t, hrowKey, ht⟩ := key_flattenCall _ _ _ _ _ _ row hrow
  obtain ⟨t', hrowKey', ht'⟩ := key_flattenCall _ _ _ _ _ _ row' hrow'
  have hdigits := takeWhile_decimal_append p.2 ht
  rw [← hrowKey, ← hkey, hrowKey', takeWhile_decimal_append q.2 ht'] at hdigits
  exact hne (decimal_injective hdigits).symm

/-! ## Connectors -/

/-- A later row that goes on with a branch comes before any row at or above its level. -/
theorem goesOn_rows (level : Nat) (rest : List TraceRow) :
    goesOn level (rest.map TraceRow.depth ++ []) = true ↔
      ∃ between later after, rest = between ++ later :: after ∧ later.depth = level + 1 ∧ ∀ r ∈ between, level < r.depth := by
  rw [List.append_nil, goesOn_iff]
  constructor
  · rintro ⟨front, back, hcut, hfront⟩
    obtain ⟨between, behind, rfl, rfl, hbehind⟩ := List.map_eq_append_iff.mp hcut
    obtain ⟨later, after, rfl, hlater, -⟩ := List.map_eq_cons_iff.mp hbehind
    exact ⟨between, later, after, rfl, hlater, fun r hr => hfront _ (List.mem_map_of_mem hr)⟩
  · rintro ⟨between, later, after, rfl, hlater, hbetween⟩
    refine ⟨between.map TraceRow.depth, after.map TraceRow.depth, by rw [List.map_append, List.map_cons, hlater], fun d hd => ?_⟩
    obtain ⟨r, hr, rfl⟩ := List.mem_map.mp hd
    exact hbetween r hr

/-- Connectors are drawn where a branch goes on: a row's guide on a level is there when a later row goes on there before the branch is
left, a row is the last sibling when no later row of its depth comes before one of a smaller depth, and no two rows have one key. -/
theorem connectors_exact (calls : List TraceCall) (invoker : Option JsString) :
    (∀ before row rest, flatten calls invoker = before ++ row :: rest →
      (∀ level, level + 1 < row.depth →
        (row.guides[level]? = some true ↔
          ∃ between later after, rest = between ++ later :: after ∧ later.depth = level + 1 ∧ ∀ r ∈ between, level < r.depth)) ∧
      (1 ≤ row.depth →
        (row.lastSibling = true ↔
          ¬∃ between later after, rest = between ++ later :: after ∧ later.depth = row.depth ∧ ∀ r ∈ between, row.depth ≤ r.depth))) ∧
      ((flatten calls invoker).map TraceRow.key).Nodup := by
  refine ⟨fun before row rest hcut => ⟨fun level hlevel => ?_, fun hdepth => ?_⟩, nodup_key_flatten calls invoker⟩
  · have hdrawn := drawn_flatten calls invoker before row rest hcut level (by omega)
    rw [TraceRow.carries, if_neg (by omega)] at hdrawn
    rw [← goesOn_rows, ← hdrawn, List.getD_eq_getElem?_getD]
    cases row.guides[level]? with
    | none => exact iff_of_false (by simp) (by simp)
    | some continues => simp
  · obtain ⟨level, hlevel⟩ := Nat.exists_eq_add_of_le' hdepth
    have hdrawn := drawn_flatten calls invoker before row rest hcut level (by omega)
    rw [TraceRow.carries, if_pos hlevel.symm] at hdrawn
    rw [hlevel]
    refine Iff.trans ?_ (not_congr (goesOn_rows level rest))
    rw [← hdrawn, Bool.not_eq_true', Bool.not_eq_false]

end Soroscan

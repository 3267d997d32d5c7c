import Soroscan.LoggedScVal

/-!
# Hostile payloads

A payload may claim any counts and lengths, at every level. Every call of `readScVal` first takes a word of its own off, so there
are no more calls than words, and one more that may fail.
-/

namespace Soroscan

namespace ScDisplay

/-- A node without others below it. -/
def IsLeaf (v : ScDisplay) : Prop := ∀ above, v.depths above = [above]

/-- Below so many containers, the tree opens no more than so many levels and has no more than so many nodes. -/
def Bounded (above levels : Nat) (v : ScDisplay) (nodes : Nat) : Prop :=
  (∀ d ∈ v.depths above, d < above + levels) ∧ (v.depths above).length ≤ nodes

theorem isLeaf_text (type : TextType) (value : JsString) : (ScDisplay.text type value).IsLeaf := fun _ => by rw [depths]

theorem isLeaf_address (address : JsString) : (ScDisplay.address address).IsLeaf := fun _ => by rw [depths]

theorem isLeaf_named (type : OpaqueType) : (ScDisplay.named type).IsLeaf := fun _ => by rw [depths]

theorem isLeaf_emptyVec : (ScDisplay.vec []).IsLeaf := fun _ => by rw [depths, itemDepths]

theorem isLeaf_emptyMap : (ScDisplay.map []).IsLeaf := fun _ => by rw [depths, entryDepths]

/-- A leaf is within any bound of one level and one node. -/
theorem IsLeaf.bounded {v : ScDisplay} (h : v.IsLeaf) (above levels n : Nat) : Bounded above (levels + 1) v (1 + n) := by
  constructor
  · intro d hd
    rw [h above, List.mem_singleton] at hd
    omega
  · rw [h above, List.length_singleton]
    exact Nat.le_add_right 1 n

/-- A container of trees that are bounded below it. -/
theorem bounded_of_parts {v : ScDisplay} {above levels n : Nat} {parts : List Nat} (hv : v.depths above = above :: parts)
    (hdepth : ∀ d ∈ parts, d < above + 1 + levels) (hlength : parts.length ≤ n) : Bounded above (levels + 1) v (1 + n) := by
  constructor
  · intro d hd
    rw [hv] at hd
    rcases List.mem_cons.mp hd with rfl | hd
    · omega
    · have := hdepth d hd
      omega
  · rw [hv, List.length_cons]
    omega

end ScDisplay

namespace ScReader

open LoggedM (Meters)
open ScDisplay (Bounded IsLeaf)

/-! ## The pieces -/

/-- So many bytes are read with one read. -/
theorem meters_fixed (count : Nat) : Meters 4 5 1 (Logged.fixed count) (fixed count) fun _ _ => True :=
  LoggedM.meters_fixed _ count

/-- A word is read with one read. -/
theorem meters_u32 : Meters 4 5 1 Logged.u32 u32 fun _ _ => True := by
  unfold Logged.u32 u32
  refine (meters_fixed 4).bind (m := 0) (Int.le_refl 0) fun data _ _ => ?_
  match data with
  | [_, _, _, _] => exact LoggedM.meters_pure trivial
  | [] | [_] | [_, _] | [_, _, _] | _ :: _ :: _ :: _ :: _ :: _ => exact LoggedM.meters_pure trivial

theorem meters_i32 : Meters 4 5 1 Logged.i32 i32 fun _ _ => True := by
  unfold Logged.i32 i32
  exact meters_u32.map fun _ _ _ => trivial

theorem meters_u64 : Meters 4 5 1 Logged.u64 u64 fun _ _ => True := by
  unfold Logged.u64 u64
  exact (meters_fixed 8).map fun _ _ _ => trivial

theorem meters_i64 : Meters 4 5 1 Logged.i64 i64 fun _ _ => True := by
  unfold Logged.i64 i64
  exact meters_u64.map fun _ _ _ => trivial

/-- A byte string is read with three reads. -/
theorem meters_opaqueData : Meters 4 5 3 Logged.opaqueData opaqueData fun _ _ => True := by
  unfold Logged.opaqueData opaqueData
  refine meters_u32.bind (m := 2) (by decide) fun length _ _ => ?_
  refine LoggedM.meters_left.bind (m := 2) (by decide) fun left _ _ => ?_
  refine LoggedM.meters_unless _ (by decide) fun _ => ?_
  refine (meters_fixed _).bind (m := 1) (by decide) fun data _ _ => ?_
  exact (meters_fixed _).map fun _ _ _ => trivial

theorem meters_readSymbol : Meters 4 5 3 Logged.readSymbol readSymbol fun _ _ => True := by
  unfold Logged.readSymbol readSymbol
  refine meters_opaqueData.bind (Int.le_refl 0) fun data _ _ => ?_
  exact LoggedM.meters_unless _ (Int.le_refl 0) fun _ => LoggedM.meters_pure trivial

/-- An error is read as a leaf. -/
theorem meters_readError : Meters 4 5 2 Logged.readError readError fun v _ => v.IsLeaf := by
  unfold Logged.readError readError
  refine meters_u32.bind (m := 1) (by decide) fun errorType _ _ => ?_
  refine meters_u32.bind (Int.le_refl 0) fun code _ _ => ?_
  exact Meters.ite (fun _ => LoggedM.meters_pure (ScDisplay.isLeaf_text _ _))
    fun _ => LoggedM.meters_pure (ScDisplay.isLeaf_text _ _)

/-- The strkey of what is read last. -/
theorem meters_addressOf (count : Nat) (version : UInt8) (payload : Bytes → Bytes) :
    Meters 4 5 1 (Logged.fixed count >>= fun data => pure (addressOf version (payload data)))
      (fixed count >>= fun data => pure (addressOf version (payload data))) fun v _ => v.IsLeaf :=
  (meters_fixed count).map fun _ _ _ => ScDisplay.isLeaf_address _

/-- An address is read as a leaf. -/
theorem meters_readAddress : Meters 4 5 3 Logged.readAddress readAddress fun v _ => v.IsLeaf := by
  unfold Logged.readAddress readAddress
  refine meters_u32.bind (m := 2) (by decide) fun word _ _ => ?_
  generalize word.toNat = kind
  match kind with
  | 0 =>
    refine meters_u32.bind (m := 1) (by decide) fun keyType _ _ => ?_
    exact LoggedM.meters_unless _ (by decide) fun _ => meters_addressOf 32 _ id
  | 1 => exact (meters_addressOf 32 _ id).mono (by decide) fun _ _ h => h
  | 2 =>
    refine (meters_fixed 8).bind (m := 1) (by decide) fun id _ _ => ?_
    exact meters_addressOf 32 _ fun ed25519 => ed25519 ++ id
  | 3 =>
    refine meters_u32.bind (m := 1) (by decide) fun idType _ _ => ?_
    exact LoggedM.meters_unless _ (by decide) fun _ => meters_addressOf 32 _ fun data => 0 :: data
  | 4 => exact (meters_addressOf 32 _ id).mono (by decide) fun _ _ h => h
  | _ + 5 => exact LoggedM.meters_fail _ (by decide)

theorem meters_readCount : Meters 4 5 1 Logged.readCount readCount fun _ _ => True := by
  unfold Logged.readCount readCount
  refine meters_u32.bind (m := 0) (by decide) fun count _ _ => ?_
  refine LoggedM.meters_left.bind (m := 0) (by decide) fun left _ _ => ?_
  exact LoggedM.meters_unless _ (by decide) fun _ => LoggedM.meters_pure trivial

theorem meters_readPresence : Meters 4 5 1 Logged.readPresence readPresence fun _ _ => True := by
  unfold Logged.readPresence readPresence
  refine meters_u32.bind (m := 0) (by decide) fun flag _ _ => ?_
  exact LoggedM.meters_unless _ (by decide) fun _ => LoggedM.meters_pure trivial

/-! ## The containers -/

section

variable {readItem : LoggedRead ScDisplay} {readItem' : Read ScDisplay} {above levels : Nat}

/-- The items of a vector are within their bounds together when each of them is. -/
theorem meters_readVecItems (h : Meters 4 5 0 readItem readItem' (Bounded above levels)) :
    Meters 4 5 1 (Logged.readVecItems readItem) (readVecItems readItem') fun items n =>
      (∀ d ∈ ScDisplay.itemDepths above items, d < above + levels) ∧ (ScDisplay.itemDepths above items).length ≤ n := by
  unfold Logged.readVecItems readVecItems
  refine meters_readCount.bind (m := 0) (Int.le_refl 0) fun count n _ => ?_
  refine (h.many count).mono (Int.le_refl 0) fun items n' hitems => ?_
  rw [ScDisplay.itemDepths_eq, List.length_flatMap]
  refine ⟨fun d hd => ?_, hitems.2.trans (Nat.le_add_left n' n)⟩
  obtain ⟨v, hv, hd⟩ := List.mem_flatMap.mp hd
  exact hitems.1 v hv d hd

/-- The entries of a map are within their bounds together when their keys and values are. -/
theorem meters_readMapEntries (h : Meters 4 5 0 readItem readItem' (Bounded above levels)) :
    Meters 4 5 1 (Logged.readMapEntries readItem) (readMapEntries readItem') fun entries n =>
      (∀ d ∈ ScDisplay.entryDepths above entries, d < above + levels) ∧
        (ScDisplay.entryDepths above entries).length ≤ n := by
  have hentry : Meters 4 5 0 (do
      let key ← readItem
      let value ← readItem
      return (key, value)) (do
      let key ← readItem'
      let value ← readItem'
      return (key, value)) fun e n =>
        (∀ d ∈ ScDisplay.depths above e.1 ++ ScDisplay.depths above e.2, d < above + levels) ∧
          (ScDisplay.depths above e.1 ++ ScDisplay.depths above e.2).length ≤ n := by
    refine h.bind (m := 0) (Int.le_refl 0) fun key n hkey => ?_
    refine h.map fun value n' hvalue => ⟨fun d hd => ?_, ?_⟩
    · rcases List.mem_append.mp hd with hd | hd
      · exact hkey.1 d hd
      · exact hvalue.1 d hd
    · rw [List.length_append]
      exact Nat.add_le_add hkey.2 hvalue.2
  unfold Logged.readMapEntries readMapEntries
  refine meters_readCount.bind (m := 0) (Int.le_refl 0) fun count n _ => ?_
  refine (hentry.many count).mono (Int.le_refl 0) fun entries n' hentries => ?_
  rw [ScDisplay.entryDepths_eq, List.length_flatMap]
  refine ⟨fun d hd => ?_, hentries.2.trans (Nat.le_add_left n' n)⟩
  obtain ⟨e, he, hd⟩ := List.mem_flatMap.mp hd
  exact hentries.1 e he d hd

/-! ## The arms -/

/-- An arm without items of its own. -/
theorem meters_leaf {p : LoggedRead ScDisplay} {q : Read ScDisplay} {k : Int} (hk : k ≤ 4)
    (h : Meters 4 5 k p q fun v _ => v.IsLeaf) : Meters 4 5 4 p q fun v n => Bounded above (levels + 1) v (1 + n) :=
  h.mono hk fun _ n hv => hv.bounded above levels n

/-- The text of what is read last. -/
theorem meters_text {α : Type} {p : LoggedRead α} {q : Read α} {k : Int} {P : α → Nat → Prop} (h : Meters 4 5 k p q P)
    (type : TextType) (value : α → Text) :
    Meters 4 5 k (p >>= fun a => pure (text type (value a))) (q >>= fun a => pure (text type (value a))) fun v _ => v.IsLeaf :=
  h.map fun _ _ _ => ScDisplay.isLeaf_text type _

/-- The four words of a wide number. -/
theorem meters_wide {α : Type} {p : LoggedRead α} {q : Read α} (h : Meters 4 5 1 p q fun _ _ => True) (type : TextType)
    (toInt : α → Int) :
    Meters 4 5 4 (do
      let hiHi ← p
      let hiLo ← Logged.u64
      let loHi ← Logged.u64
      let loLo ← Logged.u64
      return text type (intDecimal (((toInt hiHi * two64 + hiLo) * two64 + loHi) * two64 + loLo))) (do
      let hiHi ← q
      let hiLo ← u64
      let loHi ← u64
      let loLo ← u64
      return text type (intDecimal (((toInt hiHi * two64 + hiLo) * two64 + loHi) * two64 + loLo))) fun v _ => v.IsLeaf := by
  refine h.bind (m := 3) (by decide) fun hiHi _ _ => ?_
  refine meters_u64.bind (m := 2) (by decide) fun hiLo _ _ => ?_
  refine meters_u64.bind (m := 1) (by decide) fun loHi _ _ => ?_
  exact meters_text meters_u64 type _

/-- The two words of a number. -/
theorem meters_double {α : Type} {p : LoggedRead α} {q : Read α} (h : Meters 4 5 1 p q fun _ _ => True) (type : TextType)
    (toInt : α → Int) :
    Meters 4 5 2 (do
      let hi ← p
      let lo ← Logged.u64
      return text type (intDecimal (toInt hi * two64 + lo))) (do
      let hi ← q
      let lo ← u64
      return text type (intDecimal (toInt hi * two64 + lo))) fun v _ => v.IsLeaf := by
  refine h.bind (m := 1) (by decide) fun hi _ _ => ?_
  exact meters_text meters_u64 type _

/-- The storage of a contract instance is read as a map, and not shown. -/
theorem meters_storage (h : Meters 4 5 0 readItem readItem' (Bounded above levels)) :
    Meters 4 5 2 (do
      if ← Logged.readPresence then
        let _ ← Logged.readMapEntries readItem
      return ScDisplay.named .contractInstance) (do
      if ← readPresence then
        let _ ← readMapEntries readItem'
      return ScDisplay.named .contractInstance) fun v _ => v.IsLeaf := by
  have hnamed : ∀ {k : Int}, 0 ≤ k → Meters 4 5 k (pure (.named .contractInstance) : LoggedRead ScDisplay)
      (pure (.named .contractInstance)) fun v _ => v.IsLeaf :=
    fun hk => (LoggedM.meters_pure (ScDisplay.isLeaf_named _)).mono hk fun _ _ h => h
  refine meters_readPresence.bind (m := 1) (by decide) fun present _ _ => ?_
  refine Meters.ite (fun _ => ?_) fun _ => hnamed (by decide)
  exact (meters_readMapEntries h).bind (m := 0) (by decide) fun _ _ _ => hnamed (by decide)

/-- Every arm costs four reads at most, besides its items. -/
theorem meters_readArm (h : Meters 4 5 0 readItem readItem' (Bounded (above + 1) levels)) (type : Nat) :
    Meters 4 5 4 (Logged.readArm readItem type) (readArm readItem' type) fun v n => Bounded above (levels + 1) v (1 + n) := by
  unfold Logged.readArm readArm
  match type with
  | 0 => exact meters_leaf (by decide) (meters_text meters_u32 _ _)
  | 1 => exact meters_leaf (by decide) (LoggedM.meters_pure (ScDisplay.isLeaf_text _ _))
  | 2 => exact meters_leaf (by decide) meters_readError
  | 3 => exact meters_leaf (by decide) (meters_text meters_u32 _ _)
  | 4 => exact meters_leaf (by decide) (meters_text meters_i32 _ _)
  | 5 => exact meters_leaf (by decide) (meters_text meters_u64 _ _)
  | 6 => exact meters_leaf (by decide) (meters_text meters_i64 _ _)
  | 7 => exact meters_leaf (by decide) (meters_text meters_u64 _ _)
  | 8 => exact meters_leaf (by decide) (meters_text meters_u64 _ _)
  | 9 => exact meters_leaf (by decide) (meters_double meters_u64 _ fun n => n)
  | 10 => exact meters_leaf (by decide) (meters_double meters_i64 _ fun z => z)
  | 11 => exact meters_leaf (by decide) (meters_wide meters_u64 _ fun n => n)
  | 12 => exact meters_leaf (by decide) (meters_wide meters_i64 _ fun z => z)
  | 13 => exact meters_leaf (by decide) (meters_text meters_opaqueData _ _)
  | 14 => exact meters_leaf (by decide) (meters_opaqueData.map fun _ _ _ => ScDisplay.isLeaf_text _ _)
  | 15 => exact meters_leaf (by decide) (meters_readSymbol.map fun _ _ _ => ScDisplay.isLeaf_text _ _)
  | 16 =>
    refine Meters.mono (k := 2) ?_ (by decide) fun _ _ hv => hv
    refine meters_readPresence.bind (m := 1) (by decide) fun present n _ => ?_
    refine Meters.ite (fun _ => ?_) fun _ => ?_
    · refine (meters_readVecItems h).map fun items n' hitems => ?_
      exact ScDisplay.bounded_of_parts (by rw [ScDisplay.depths]) hitems.1 (hitems.2.trans (Nat.le_add_left n' n))
    · exact (LoggedM.meters_pure (ScDisplay.isLeaf_emptyVec.bounded above levels _)).mono (by decide) fun _ _ hv => hv
  | 17 =>
    refine Meters.mono (k := 2) ?_ (by decide) fun _ _ hv => hv
    refine meters_readPresence.bind (m := 1) (by decide) fun present n _ => ?_
    refine Meters.ite (fun _ => ?_) fun _ => ?_
    · refine (meters_readMapEntries h).map fun entries n' hentries => ?_
      exact ScDisplay.bounded_of_parts (by rw [ScDisplay.depths]) hentries.1 (hentries.2.trans (Nat.le_add_left n' n))
    · exact (LoggedM.meters_pure (ScDisplay.isLeaf_emptyMap.bounded above levels _)).mono (by decide) fun _ _ hv => hv
  | 18 => exact meters_leaf (by decide) meters_readAddress
  | 19 =>
    refine meters_leaf (k := 4) (by decide) (meters_u32.bind (m := 3) (by decide) fun kind _ _ => ?_)
    refine Meters.ite (fun _ => ?_) fun _ => (meters_storage h).mono (by decide) fun _ _ hv => hv
    exact (meters_fixed 32).bind (m := 2) (by decide) fun _ _ _ => meters_storage h
  | 20 => exact meters_leaf (by decide) (LoggedM.meters_pure (ScDisplay.isLeaf_named _))
  | 21 => exact meters_leaf (by decide) (meters_text meters_i64 _ _)
  | _ + 22 => exact LoggedM.meters_fail _ (by decide)

end

/-! ## The decoder -/

/-- The word that a call takes first pays for it. -/
theorem meters_call_u32 : Meters 4 5 (1 - 5) (LoggedM.call Logged.u32) u32 fun _ n => n = 1 := by
  unfold Logged.u32 u32
  rw [LoggedM.call_bind]
  refine (LoggedM.meters_call_fixed _).bind (m := 0) (by decide) fun data n hn => ?_
  match data with
  | [_, _, _, _] => exact LoggedM.meters_pure hn
  | [] | [_] | [_, _] | [_, _, _] | _ :: _ :: _ :: _ :: _ :: _ => exact LoggedM.meters_pure hn

/-- The decoder is the one without a log; every call takes a word of its own, and five reads at most. -/
theorem meters_readScVal (levels above : Nat) :
    Meters 4 5 0 (Logged.readScVal levels) (readScVal levels) (Bounded above levels) := by
  induction levels generalizing above with
  | zero => exact LoggedM.meters_call_fail _
  | succ levels ih =>
    unfold Logged.readScVal readScVal
    rw [LoggedM.call_bind]
    refine meters_call_u32.bind (m := 4) (by decide) fun word n hn => ?_
    rw [hn]
    exact meters_readArm (ih (above + 1)) word.toNat

/-- What a payload can cost: its length bounds the calls, the reads and the tree, and every read is inside it. -/
structure Harmless (payload : Bytes) : Prop where
  decodes : ∀ base64, bytesOf base64 = some payload → decodeScVal base64 = (decodeRun payload).2.toOption.map Prod.fst
  inside : ∀ read ∈ (decodeRun payload).1.reads, read.1 + read.2 ≤ payload.length
  calls_le : (decodeRun payload).1.calls ≤ payload.length / 4 + 1
  reads_le : (decodeRun payload).1.reads.length ≤ 5 * (decodeRun payload).1.calls
  nodes_le : ∀ v r, (decodeRun payload).2 = .ok (v, r) → (v.depths 0).length ≤ payload.length / 4
  depth_le : ∀ v r, (decodeRun payload).2 = .ok (v, r) → ∀ containers ∈ v.depths 0, containers ≤ 8

/-- The logged reader of a payload has the outcome of the reader and its costs. -/
theorem costs_decodeRun (payload : Bytes) : (decodeRun payload).2 = readScVal (maxDepth + 1) (Reader.start payload) ∧
    LoggedM.Costs 4 5 0 (Bounded 0 (maxDepth + 1)) (Reader.start payload) (decodeRun payload).1 (decodeRun payload).2 := by
  obtain ⟨herase, hcosts⟩ := meters_readScVal (maxDepth + 1) 0 (Reader.start payload)
  rw [← herase] at hcosts
  exact ⟨herase, hcosts⟩

/-- A run that returns has a word for every call, and a call for every node. -/
theorem run_of_decodeRun {payload : Bytes} {v : ScDisplay} {r : Reader} (hrun : (decodeRun payload).2 = .ok (v, r)) :
    4 * (decodeRun payload).1.calls ≤ payload.length ∧ Bounded 0 (maxDepth + 1) v (decodeRun payload).1.calls := by
  obtain ⟨hbytes, hpos, hbounded⟩ := (costs_decodeRun payload).2.ok v r hrun
  have hstart : 0 + 4 * (decodeRun payload).1.calls ≤ r.pos := hpos
  have hend : r.pos ≤ payload.length := by
    rw [← show r.bytes = payload from hbytes]
    exact r.pos_le
  exact ⟨by omega, hbounded⟩

/-- No payload costs more than its length, whatever counts and lengths it claims. -/
theorem harmless (payload : Bytes) : Harmless payload := by
  obtain ⟨herase, hcosts⟩ := costs_decodeRun payload
  refine ⟨fun base64 hbytes => ?_, hcosts.inside, ?_, ?_, fun v r hrun => ?_, fun v r hrun d hd => ?_⟩
  · rw [decodeScVal, hbytes, Option.bind_some, herase]
  · cases hrun : (decodeRun payload).2 with
    | ok vr =>
      have hcalls := (run_of_decodeRun (v := vr.1) (r := vr.2) hrun).1
      omega
    | error e =>
      have herror : 0 + 4 * (decodeRun payload).1.calls ≤ payload.length + 4 := hcosts.error e hrun
      omega
  · have hreads := hcosts.reads_le
    omega
  · obtain ⟨hcalls, -, hnodes⟩ := run_of_decodeRun hrun
    omega
  · have hdepth := (run_of_decodeRun hrun).2.1 d hd
    rw [maxDepth] at hdepth
    omega

/-- A vector that claims more items than there are words fails in its own call. -/
example : (decodeRun [0, 0, 0, 16, 0, 0, 0, 1, 255, 255, 255, 255]).1 = ⟨1, [(0, 4), (4, 4), (8, 4)]⟩ := by decide +kernel

end ScReader

end Soroscan

import Soroscan.Entity

/-!
# The entity of every path

What `routeEntityFromPath` gives is classified as it says: an id that was classified is trimmed and in lower case, and is classified
the same when it is looked at again. But a percent sign that begins no escape makes the decoder throw, and nothing catches it.
-/

namespace Soroscan

namespace Entity

open Percent

/-! ## Trimmed strings -/

/-- What ends a string is taken off without what begins it. -/
theorem dropWhile_rdropWhile {α : Type*} (p : α → Bool) {l : List α} (h : l.dropWhile p = l) :
    (l.rdropWhile p).dropWhile p = l.rdropWhile p := by
  rw [List.dropWhile_eq_self_iff] at h ⊢
  intro hl
  have hfront : l.rdropWhile p <+: l := List.rdropWhile_prefix p l
  rw [hfront.getElem hl]
  exact h (Nat.lt_of_lt_of_le hl hfront.length_le)

@[simp] theorem trim_trim (s : JsString) : trim (trim s) = trim s := by
  unfold trim
  rw [dropWhile_rdropWhile isSpace (List.dropWhile_idempotent isSpace s), List.rdropWhile_idempotent]

/-- A string without white space is trimmed. -/
theorem trim_of_not_isSpace {s : JsString} (h : ∀ u ∈ s, isSpace u = false) : trim s = s := by
  have hfront : s.dropWhile isSpace = s := by
    rw [List.dropWhile_eq_self_iff]
    intro hl
    rw [h _ (List.getElem_mem hl)]
    exact Bool.false_ne_true
  have hback : s.rdropWhile isSpace = s := by
    rw [List.rdropWhile_eq_self_iff]
    intro hs
    rw [h _ (List.getLast_mem hs)]
    exact Bool.false_ne_true
  rw [trim, hfront, hback]

/-! ## Hashes in lower case -/

theorem isHexUnit_iff {u : UInt16} :
    isHexUnit u = true ↔ (48 ≤ u.toNat ∧ u.toNat ≤ 57) ∨ (97 ≤ u.toNat ∧ u.toNat ≤ 102) ∨ (65 ≤ u.toNat ∧ u.toNat ≤ 70) := by
  unfold isHexUnit
  simp only [Bool.or_eq_true, Bool.and_eq_true, decide_eq_true_iff, UInt16.le_iff_toNat_le, UInt16.reduceToNat, or_assoc]

theorem toNat_lowerUnit (u : UInt16) :
    (lowerUnit u).toNat = if 65 ≤ u.toNat ∧ u.toNat ≤ 90 then u.toNat + 32 else u.toNat := by
  unfold lowerUnit
  simp only [Bool.and_eq_true, decide_eq_true_iff, UInt16.le_iff_toNat_le, UInt16.reduceToNat]
  split
  · rw [UInt16.toNat_add]
    simp only [UInt16.reduceToNat]
    omega
  · rfl

theorem isHexUnit_lowerUnit {u : UInt16} (h : isHexUnit u = true) : isHexUnit (lowerUnit u) = true := by
  rw [isHexUnit_iff] at h ⊢
  rw [toNat_lowerUnit]
  split <;> omega

theorem lowerUnit_lowerUnit (u : UInt16) : lowerUnit (lowerUnit u) = lowerUnit u := by
  rw [← UInt16.toNat_inj, toNat_lowerUnit, toNat_lowerUnit]
  by_cases hupper : 65 ≤ u.toNat ∧ u.toNat ≤ 90
  · rw [if_pos hupper, if_neg (by omega)]
  · rw [if_neg hupper, if_neg hupper]

theorem isSpace_of_isHexUnit {u : UInt16} (h : isHexUnit u = true) : isSpace u = false := by
  rw [isHexUnit_iff] at h
  refine Bool.eq_false_iff.mpr fun hspace => ?_
  unfold isSpace at hspace
  simp only [Bool.or_eq_true, Bool.and_eq_true, decide_eq_true_iff, UInt16.le_iff_toNat_le, UInt16.reduceToNat,
    ← UInt16.toNat_inj] at hspace
  omega

theorem isTxHash_iff {s : JsString} : isTxHash s = true ↔ s.length = 64 ∧ ∀ u ∈ s, isHexUnit u = true := by
  rw [isTxHash, Bool.and_eq_true, decide_eq_true_iff, List.all_eq_true]

/-- A hash in lower case is a hash. -/
theorem isTxHash_lower {s : JsString} (h : isTxHash s = true) : isTxHash (s.map lowerUnit) = true := by
  rw [isTxHash_iff] at h ⊢
  refine ⟨by rw [List.length_map, h.1], fun u hu => ?_⟩
  obtain ⟨v, hv, rfl⟩ := List.mem_map.mp hu
  exact isHexUnit_lowerUnit (h.2 v hv)

/-- A check that only passes strings of one length fails on the others. -/
theorem check_eq_false {check : JsString → Bool} {n : Nat} (hcheck : ∀ v, check v = true → v.length = n) {s : JsString}
    (h : s.length ≠ n) : check s = false :=
  Bool.eq_false_iff.mpr fun hvalid => h (hcheck s hvalid)

/-- A hash is no address. -/
theorem classifySearch_of_isTxHash {keys : StrKey} (hkeys : keys.HasLengths) {s : JsString} (h : isTxHash s = true) :
    classifySearch keys s = ⟨.tx, s.map lowerUnit⟩ := by
  obtain ⟨hlength, hhex⟩ := isTxHash_iff.mp h
  have htrim : trim s = s := trim_of_not_isSpace fun u hu => isSpace_of_isHexUnit (hhex u hu)
  have hed : keys.isValidEd25519PublicKey s = false := check_eq_false hkeys.ed25519 (by omega)
  have hmed : keys.isValidMed25519PublicKey s = false := check_eq_false hkeys.med25519 (by omega)
  have hcontract : keys.isValidContract s = false := check_eq_false hkeys.contract (by omega)
  unfold classifySearch
  simp only [htrim, hed, hmed, hcontract, h, Bool.or_self, Bool.false_eq_true, if_false, if_true]

@[simp] theorem classifySearch_trim (keys : StrKey) (raw : JsString) :
    classifySearch keys (trim raw) = classifySearch keys raw := by
  unfold classifySearch
  rw [trim_trim]

/-- The value is the trimmed string, or that of a hash in lower case. -/
theorem classifySearch_value_cases (keys : StrKey) (raw : JsString) :
    (classifySearch keys raw).value = trim raw ∨
      (isTxHash (trim raw) = true ∧ classifySearch keys raw = ⟨.tx, (trim raw).map lowerUnit⟩) := by
  unfold classifySearch
  simp only
  split
  · exact Or.inl rfl
  · split
    · exact Or.inl rfl
    · split
      · rename_i hhash
        exact Or.inr ⟨hhash, rfl⟩
      · split
        · exact Or.inl rfl
        · exact Or.inl rfl

/-- What was classified is classified the same when it is looked at again. -/
theorem classifySearch_value {keys : StrKey} (hkeys : keys.HasLengths) (raw : JsString) :
    classifySearch keys (classifySearch keys raw).value = classifySearch keys raw := by
  rcases classifySearch_value_cases keys raw with hvalue | ⟨hhash, htx⟩
  · rw [hvalue, classifySearch_trim]
  · rw [htx, classifySearch_of_isTxHash hkeys (isTxHash_lower hhash), List.map_map]
    congr 1
    exact List.map_congr_left fun u _ => lowerUnit_lowerUnit u

/-! ## Ids of assets -/

/-- The form of an asset's id: `XLM`, or a code of up to twelve letters and digits, a hyphen and a G address. -/
def AssetForm (id : JsString) : Prop :=
  id = js "XLM".toList ∨
    ∃ code key, id = code ++ js "-G".toList ++ key ∧ 1 ≤ code.length ∧ code.length ≤ 12 ∧ (∀ u ∈ code, isAlnumUnit u = true) ∧
      key.length = 55 ∧ ∀ u ∈ key, isBase32Unit u = true

theorem isIssuerPart_iff {s : JsString} :
    isIssuerPart s = true ↔ ∃ key, s = js "-G".toList ++ key ∧ key.length = 55 ∧ ∀ u ∈ key, isBase32Unit u = true := by
  constructor
  · intro h
    unfold isIssuerPart at h
    split at h
    · rename_i key
      rw [Bool.and_eq_true, decide_eq_true_iff, List.all_eq_true] at h
      exact ⟨key, rfl, h⟩
    · cases h
  · rintro ⟨key, rfl, hlength, hkey⟩
    have hall : (decide (key.length = 55) && key.all isBase32Unit) = true := by
      rw [Bool.and_eq_true, decide_eq_true_iff, List.all_eq_true]
      exact ⟨hlength, hkey⟩
    exact hall

theorem isAssetId_iff {s : JsString} : isAssetId s = true ↔ AssetForm s := by
  unfold isAssetId
  rw [Bool.or_eq_true, Bool.and_eq_true, Bool.and_eq_true, decide_eq_true_iff, decide_eq_true_iff, decide_eq_true_iff,
    isIssuerPart_iff, or_comm]
  refine or_congr_right ⟨?_, ?_⟩
  · rintro ⟨⟨hpos, hle⟩, key, hkey, hlength, hbase⟩
    refine ⟨s.takeWhile isAlnumUnit, key, ?_, hpos, hle, fun u hu => List.mem_takeWhile_imp hu, hlength, hbase⟩
    rw [List.append_assoc, ← hkey, List.takeWhile_append_dropWhile]
  · rintro ⟨code, key, rfl, hpos, hle, hcode, hlength, hbase⟩
    have htake : (code ++ js "-G".toList ++ key).takeWhile isAlnumUnit = code := by
      rw [List.append_assoc, List.takeWhile_append_of_pos hcode]
      exact List.append_nil code
    have hdrop : (code ++ js "-G".toList ++ key).dropWhile isAlnumUnit = js "-G".toList ++ key := by
      rw [List.append_assoc, List.dropWhile_append_of_pos hcode]
      rfl
    rw [htake, hdrop]
    exact ⟨⟨hpos, hle⟩, key, rfl, hlength, hbase⟩

/-! ## References -/

/-- The id of a reference is of its kind. -/
def AiRef.Classified (keys : StrKey) (ref : AiRef) : Prop :=
  if ref.kind = .asset then AssetForm ref.id else (classifySearch keys ref.id).type.kind = some ref.kind

/-- A reference that is made is of its kind. -/
theorem classified_of_refOf {keys : StrKey} (hkeys : keys.HasLengths) {kind : SegmentKind} {raw : JsString} {ref : AiRef}
    (h : refOf keys kind raw = some ref) : ref.Classified keys := by
  unfold refOf at h
  split at h
  · split at h
    · rename_i hid
      cases h
      exact isAssetId_iff.mp hid
    · cases h
  · rename_i kind hkind
    simp only at h
    split at h
    · rename_i htype
      cases h
      unfold AiRef.Classified
      rw [if_neg fun hasset => hkind hasset]
      simp only
      rw [classifySearch_value hkeys, htype]
    · cases h
  · cases h

/-- Where the path begins with the segment of a kind, or the name of an inherited property, every percent sign of the segment after
it is of the escapes of a character. -/
def WellEscaped (pathname : JsString) : Prop :=
  ∀ first second rest, pathParts pathname = first :: second :: rest → kindBySegment first ≠ none → ∃ out, Decodes second out

/-- The function ends without a throw, in nothing or in a reference of its kind. -/
def RouteHeld (keys : StrKey) (pathname : JsString) : Prop :=
  ∃ result, routeEntityFromPath keys pathname = some result ∧ ∀ ref, result = some ref → ref.Classified keys

/-- The function throws only in its decoder. -/
theorem routeEntityFromPath_isSome_iff (keys : StrKey) (pathname : JsString) :
    (routeEntityFromPath keys pathname).isSome = true ↔ WellEscaped pathname := by
  unfold routeEntityFromPath WellEscaped
  split
  · rename_i first second rest hparts
    split
    · rename_i hnone
      refine ⟨fun _ first' second' rest' hparts' hkind => ?_, fun _ => rfl⟩
      obtain ⟨rfl, -⟩ := List.cons.inj (hparts.symm.trans hparts')
      exact absurd hnone hkind
    · rename_i kind hkind
      rw [Option.isSome_map, Option.isSome_iff_exists]
      constructor
      · rintro ⟨out, hout⟩ first' second' rest' hparts' -
        obtain ⟨-, htail⟩ := List.cons.inj (hparts.symm.trans hparts')
        obtain ⟨rfl, -⟩ := List.cons.inj htail
        exact ⟨out, decodeURIComponent_eq_some_iff.mp hout⟩
      · intro h
        obtain ⟨out, hout⟩ := h first second rest hparts (by rw [hkind]; exact Option.some_ne_none kind)
        exact ⟨out, decodeURIComponent_eq_some_iff.mpr hout⟩
  · rename_i hparts
    exact ⟨fun _ first second rest h => absurd h (hparts first second rest), fun _ => rfl⟩

/-- What the function gives is of its kind. -/
theorem classified_of_routeEntityFromPath {keys : StrKey} (hkeys : keys.HasLengths) {pathname : JsString} {ref : AiRef}
    (h : routeEntityFromPath keys pathname = some (some ref)) : ref.Classified keys := by
  unfold routeEntityFromPath at h
  split at h
  · split at h
    · cases h
    · obtain ⟨raw, -, href⟩ := Option.map_eq_some_iff.mp h
      exact classified_of_refOf hkeys href
  · cases h

/-- The function does as it says exactly on the paths whose escapes are well formed where they are decoded. -/
theorem routeEntity_held_iff {keys : StrKey} (hkeys : keys.HasLengths) (pathname : JsString) :
    RouteHeld keys pathname ↔ WellEscaped pathname := by
  rw [← routeEntityFromPath_isSome_iff keys, Option.isSome_iff_exists]
  constructor
  · rintro ⟨result, hresult, -⟩
    exact ⟨result, hresult⟩
  · rintro ⟨result, hresult⟩
    refine ⟨result, hresult, ?_⟩
    rintro ref rfl
    exact classified_of_routeEntityFromPath hkeys hresult

/-- The checks, where nothing is an address. -/
def noAddress : StrKey := ⟨fun _ => false, fun _ => false, fun _ => false⟩

theorem noAddress_hasLengths : noAddress.HasLengths :=
  ⟨fun _ h => Bool.noConfusion h, fun _ h => Bool.noConfusion h, fun _ h => Bool.noConfusion h⟩

/-- A lone percent sign, on a path whose segments are no addresses. -/
theorem routeEntity_not_held : ¬RouteHeld noAddress (js "/tx/%".toList) := by
  rintro ⟨result, h, -⟩
  have hthrows : routeEntityFromPath noAddress (js "/tx/%".toList) = none := by decide +kernel
  rw [hthrows] at h
  cases h

/-- The path of a ledger, with an escape in its number. -/
theorem routeEntity_held_ledger :
    RouteHeld noAddress (js "/ledger/4%32".toList) ∧
      routeEntityFromPath noAddress (js "/ledger/4%32".toList) = some (some ⟨.ledger, js "42".toList⟩) := by
  have hescaped : WellEscaped (js "/ledger/4%32".toList) := by
    rw [← routeEntityFromPath_isSome_iff noAddress]
    decide +kernel
  exact ⟨(routeEntity_held_iff noAddress_hasLengths _).mpr hescaped, by decide +kernel⟩

end Entity

end Soroscan

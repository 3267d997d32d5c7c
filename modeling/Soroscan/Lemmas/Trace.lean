import Soroscan.Lemmas.ScDisplay
import Soroscan.Trace

/-!
# What the trace shows of single values

The trace reads contract values back from what is shown of them: a label from a shown symbol, the id of a contract from the
hexadecimal text of its bytes. Here is what comes of each.
-/

namespace Soroscan

/-- What is shown of a value with bytes. -/
theorem displayOf_eq {v : ScVal} (hv : v.Sized) : displayOf v = v.shown (maxDepth + 1) := decodeScVal_b64 hv

/-- An address has bytes. -/
theorem sized_address (a : ScAddress) : (ScVal.address a).Sized :=
  ScVal.sized_of_everyPart (show ScVal.everyPart ScVal.fitsWords (0 + 1) (.address a) = true from rfl)

theorem scAddressOf_contract (id : Bytes32) : scAddressOf (.contract id) = some (js (contractStrkey id)) := by
  unfold scAddressOf decodeScAddress
  rw [decodeScVal_b64 (sized_address _), ScVal.shown_leaf maxDepth rfl rfl]
  rfl

/-! ## Symbols -/

/-- The text of a valid symbol. -/
def ScVal.symbolText : ScVal → Option JsString
  | .symbol s => if ScReader.validSymbol s then some (ScReader.fromCharCode s) else none
  | _ => none

theorem symbolOf_shown (levels : Nat) (v : ScVal) : symbolOf (v.shown (levels + 1)) = v.symbolText := by
  cases v with
  | symbol s =>
    rw [ScVal.shown_symbol, ScVal.symbolText]
    cases ScReader.validSymbol s <;> rfl
  | vec items => cases items <;> (unfold ScVal.shown; split <;> rfl)
  | map entries => cases entries <;> (unfold ScVal.shown; split <;> rfl)
  | _ => unfold ScVal.shown; split <;> rfl

theorem symbolOf_displayOf {v : ScVal} (hv : v.Sized) : symbolOf (displayOf v) = v.symbolText := by
  rw [displayOf_eq hv, symbolOf_shown]

theorem fromCharCode_injective {a b : Bytes} (h : ScReader.fromCharCode a = ScReader.fromCharCode b) : a = b := by
  have hinj : Function.Injective UInt8.toUInt16 := by
    intro x y hxy
    have := congrArg UInt16.toNat hxy
    rw [UInt8.toNat_toUInt16, UInt8.toNat_toUInt16] at this
    exact UInt8.toNat_inj.mp this
  exact List.map_injective_iff.mpr hinj h

/-- The label of an event is a valid symbol when its first topic is that symbol. -/
theorem labelOf_cons_iff {topic : ScVal} {topics : List ScVal} (ht : topic.Sized) {label : Bytes}
    (hlabel : ScReader.validSymbol label = true) :
    labelOf (topic :: topics) = some (ScReader.fromCharCode label) ↔ topic = .symbol label := by
  have hfirst : (topic :: topics)[0]? = some topic := rfl
  rw [labelOf, hfirst, Option.bind_some, symbolOf_displayOf ht]
  constructor
  · intro h
    cases topic with
    | symbol s =>
      rw [ScVal.symbolText] at h
      split_ifs at h
      rw [fromCharCode_injective (Option.some.inj h)]
    | _ => cases h
  · rintro rfl
    rw [ScVal.symbolText, if_pos hlabel]

theorem decodeScSymbol_b64 {s : Bytes} (hsized : (ScVal.symbol s).Sized) (hvalid : ScReader.validSymbol s = true) (hne : s ≠ []) :
    decodeScSymbol (ScVal.b64 (.symbol s)) = some (ScReader.fromCharCode s) := by
  have htext : ScReader.fromCharCode s ≠ [] := by
    intro h
    exact hne (List.map_eq_nil_iff.mp h)
  unfold decodeScSymbol
  rw [decodeScVal_b64 hsized, ScVal.shown_symbol, if_pos hvalid]
  exact if_neg htext

/-! ## Contracts -/

theorem js_append (s t : Text) : js (s ++ t) = js s ++ js t := List.flatMap_append

/-- The hexadecimal text of bytes is of digits and letters. -/
theorem toNat_lt_of_mem_hexText {bs : Bytes} {c : Char} (h : c ∈ hexText bs) : c.toNat < 0x10000 := by
  have hdigit := hexValue_of_mem_hexText h
  unfold hexValue at hdigit
  have hlt : ∀ d : Char, c ≤ d → c.toNat ≤ d.toNat := fun d h => h
  split_ifs at hdigit with hnum hletter
  · exact lt_of_le_of_lt (hlt _ hnum.2) (by decide)
  · exact lt_of_le_of_lt (hlt _ hletter.2) (by decide)
  · cases hdigit

/-- It is read back from its code units. -/
theorem charsOf_js_hexText (bs : Bytes) : charsOf (js (hexText bs)) = hexText bs :=
  charsOf_js fun _ hc => toNat_lt_of_mem_hexText hc

/-- The callee is found again from what is shown of its id. -/
theorem contractOf_displayOf (id : Bytes32) :
    contractOf (displayOf (.bytes id.bytes)) = some (js (contractStrkey id)) := by
  have hsized : (ScVal.bytes id.bytes).Sized := by
    refine ScVal.sized_of_everyPart (show ScVal.everyPart ScVal.fitsWords (0 + 1) (.bytes id.bytes) = true from ?_)
    rw [ScVal.everyPart, ScVal.fitsWords, id.length_eq]
    rfl
  have hshown : shownBytes id.bytes = ['0', 'x'] ++ hexText id.bytes := by
    rw [shownBytes, if_pos (le_of_eq id.length_eq)]
  have hhex : charsOf ((js (['0', 'x'] ++ hexText id.bytes)).drop 2) = hexText id.bytes := by
    rw [js_append]
    exact charsOf_js_hexText id.bytes
  have hall : (hexText id.bytes).all isHexDigit = true :=
    List.all_eq_true.mpr fun c hc => hexValue_of_mem_hexText hc
  have hlength : (hexText id.bytes).length = 64 := by rw [hexText_length, id.length_eq]
  rw [displayOf_eq hsized, ScVal.shown_leaf maxDepth rfl rfl, ScVal.display, hshown, ScReader.text, contractOf, hhex,
    if_pos ⟨hlength, hall⟩, readHex_hexText]
  rfl

/-! ## Values of events and calls -/

/-- What is shown of a value that is silent when void. -/
def ScVal.quiet : ScVal → Option ScDisplay
  | .void => none
  | v => v.shown (maxDepth + 1)

theorem unlessVoid_displayOf {v : ScVal} (hv : v.Sized) : unlessVoid (displayOf v) = v.quiet := by
  rw [displayOf_eq hv]
  cases v with
  | void => rfl
  | vec items => cases items <;> (simp only [ScVal.quiet, ScVal.shown]; split <;> rfl)
  | map entries => cases entries <;> (simp only [ScVal.quiet, ScVal.shown]; split <;> rfl)
  | _ => simp only [ScVal.quiet, ScVal.shown]; split <;> rfl

end Soroscan

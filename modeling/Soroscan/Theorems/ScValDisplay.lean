import Soroscan.Lemmas.ScDisplay

/-!
# Decoding inverts the layout

A contract value with at most eight vectors, maps and contract instances around any part of it, and with valid symbols, is shown
as its display form. Any other value is not shown at all.
-/

namespace Soroscan

/-- Decoding inverts the layout of contract values. -/
theorem decodeScVal_toXdr {v : ScVal} (hsized : v.Sized) (hdepth : ∀ depth w, ScVal.Inside depth v w → depth ≤ 8)
    (hsymbols : ∀ depth s, ScVal.Inside depth v (.symbol s) → ScReader.validSymbol s = true) :
    decodeScVal (Base64.encode v.toXdr) = some v.display := by
  have hfits : v.fits (maxDepth + 1) = true := by
    refine ScVal.everyPart_iff.mpr fun depth w h => ⟨hdepth depth w h, ?_⟩
    cases w with
    | symbol s => exact hsymbols depth s h
    | _ => rfl
  have hshown : v.shown (maxDepth + 1) = some v.display := if_pos hfits
  rw [← hshown]
  exact decodeScVal_b64 hsized

/-- The topics of a transfer: a symbol, a muxed address in a map, the least number of 128 bits, and an instance. -/
def transferTopics : ScVal :=
  .vec (some [.symbol [116, 114, 97, 110, 115, 102, 101, 114],
    .map (some [(.u32 7, .address (.muxed 5 Bytes32.zero))]),
    .i128 0x8000000000000000 0,
    .contractInstance (.wasm Bytes32.zero) (some [(.bool true, .bytes [1, 2, 3])])])

theorem decodeScVal_transferTopics : decodeScVal (Base64.encode transferTopics.toXdr) = some transferTopics.display := by
  have hfits := ScVal.everyPart_iff.mp (show transferTopics.fits (8 + 1) = true by decide)
  have hsized : transferTopics.Sized :=
    ScVal.sized_of_everyPart (show transferTopics.everyPart ScVal.fitsWords (8 + 1) = true by decide)
  exact decodeScVal_toXdr hsized (fun depth w h => (hfits depth w h).1) fun depth s h => (hfits depth _ h).2

end Soroscan

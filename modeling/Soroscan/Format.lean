import Soroscan.Lib.DecimalText

/-!
# Amounts as text

`format.ts`: amounts are formatted and compared as strings, never as floating-point numbers. A string is its code units.
-/

namespace Soroscan

open DecimalText

/-- `HOSTILE_CHARS`: controls that reorder or hide the text beside them. -/
def isHostile (u : UInt16) : Bool :=
  u ≤ 0x0008 || u = 0x000B || u = 0x000C || (0x000E ≤ u && u ≤ 0x001F) || (0x007F ≤ u && u ≤ 0x009F) || u = 0x200E ||
    u = 0x200F || (0x202A ≤ u && u ≤ 0x202E) || (0x2066 ≤ u && u ≤ 0x2069)

/-- `sanitizeChainText`. -/
def sanitizeChainText (value : JsString) : JsString := value.map fun u => if isHostile u then 0xFFFD else u

/-- `/^-?\d+$/`. -/
def isIntegerText (s : JsString) : Bool :=
  let digits := if s.head? = some minus then s.tail else s
  digits ≠ [] && digits.all isDigit

/-- `/^\d+(\.\d+)?$/`, with at most so many digits behind the dot where a bound is given. -/
def isDecimalText (maxFraction : Option Nat) (s : JsString) : Bool :=
  let int := s.takeWhile isDigit
  let rest := s.dropWhile isDigit
  int ≠ [] && (rest = [] || (rest.head? = some dot && rest.tail ≠ [] && rest.tail.all isDigit &&
    maxFraction.all fun bound => rest.tail.length ≤ bound))

/-- `formatAmount`: an integer amount at a scale. -/
def formatAmount (raw : JsString) (decimals : Nat) : JsString :=
  if isIntegerText raw then
    let negative := raw.head? == some minus
    let digits := padStart (decimals + 1) (if negative then raw.drop 1 else raw)
    let intPart := digits.rdrop decimals
    let fraction := if 0 < decimals then trimZeros (digits.rtake decimals) else []
    (if negative then [minus] else []) ++ groupThousands intPart ++ fractionText fraction
  else sanitizeChainText raw

/-- `replace(/\.$/, "")`. -/
def trimDot (s : JsString) : JsString := if s.getLast? = some dot then s.dropLast else s

/-- `formatXlmDisplay`. -/
def formatXlmDisplay (stroops : JsString) : JsString :=
  let full := formatAmount stroops 7
  match full.idxOf? dot with
  | none => full
  | some position => if full.length - position - 1 ≤ 5 then full else trimDot (trimZeros (full.take (position + 6)))

/-- `value.split(".")`, taken as `[intPart, fraction = ""]`. -/
def splitDecimal (value : JsString) : JsString × JsString :=
  let parts := value.splitOn dot
  (parts.getD 0 [], parts.getD 1 [])

/-- `formatDecimalDisplay`. -/
def formatDecimalDisplay (value : JsString) (maxFraction : Nat) : JsString :=
  if isDecimalText none value then
    let (intPart, fraction) := splitDecimal value
    let grouped := groupThousands intPart
    let trimmed := trimZeros (fraction.take maxFraction)
    if trimmed = [] then grouped else grouped ++ dot :: trimmed
  else sanitizeChainText value

/-- `decimalToStroops`: the stroops of an amount of at most seven decimals. -/
def decimalToStroops (value : JsString) : Option Nat :=
  if isDecimalText (some 7) value then
    let (intPart, fraction) := splitDecimal value
    some (numberOf (intPart ++ padEnd 7 fraction))
  else none

/-- `subtractDecimalStrings`. -/
def subtractDecimalStrings (minuend subtrahend : JsString) : Option JsString :=
  match decimalToStroops minuend, decimalToStroops subtrahend with
  | some left, some right =>
    let delta : Int := left - right
    if delta < 0 then none
    else
      let digits := padStart 8 (js (intDecimal delta))
      let intPart := digits.rdrop 7
      let fraction := trimZeros (digits.rtake 7)
      some (if fraction = [] then intPart else intPart ++ dot :: fraction)
  | _, _ => none

end Soroscan

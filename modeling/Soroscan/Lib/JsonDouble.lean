import Soroscan.Lib.Double
import Soroscan.Lib.JsonPieces

/-!
# JSON values with numbers of double precision

A program whose only numbers are those of double precision reads the token of a number as the nearest of them, and as an infinity
where they have no number so large. The rest of a value it reads as it is. Zero has no sign here.
-/

namespace Soroscan

/-! ## Numbers -/

/-- A number of double precision, or an infinity. -/
inductive JsNumber where
  | finite (x : ℚ)
  | infinite (negative : Bool)
  deriving DecidableEq

/-- A rational number rounded: the numbers of double precision end before the power of two that they have no exponent for. -/
def JsNumber.of (x : ℚ) : JsNumber :=
  if 2 ^ 1024 ≤ |toDouble x| then .infinite (decide (x < 0)) else .finite (toDouble x)

/-- A natural number of 53 bits is kept. -/
theorem JsNumber.of_natCast {n : Nat} (h : n < 2 ^ 53) : JsNumber.of n = .finite n := by
  have hsmall : ¬(2 ^ 1024 : ℚ) ≤ |(n : ℚ)| := by
    rw [Nat.abs_cast, not_le]
    calc (n : ℚ) < 2 ^ 53 := by exact_mod_cast h
      _ ≤ 2 ^ 1024 := pow_le_pow_right₀ (by norm_num) (by norm_num)
  rw [JsNumber.of, toDouble_natCast h, if_neg hsmall]

/-- The digits behind the point that a text may begin with. -/
def fractionDigits : Text → Text
  | '.' :: t => t.takeWhile Char.isDigit
  | _ => []

/-- The integer behind the letter of the exponent, or 0. -/
def exponentOf (t : Text) : Int :=
  match t.dropWhile fun c => c ≠ 'e' && c ≠ 'E' with
  | _ :: '+' :: digits => (readInt digits).getD 0
  | _ :: digits => (readInt digits).getD 0
  | [] => 0

/-- The number that the token of a number names. -/
def tokenValue (token : Text) : ℚ :=
  let magnitude := token.dropWhile fun c => c = '-'
  let fraction := fractionDigits (magnitude.dropWhile Char.isDigit)
  let value := (Nat.ofDigitChars 10 (magnitude.takeWhile Char.isDigit ++ fraction) 0 : ℚ) * 10 ^ (exponentOf token - fraction.length)
  if token.head? = some '-' then -value else value

/-- The decimal form of a natural number names it. -/
theorem tokenValue_decimal (n : Nat) : tokenValue (decimal n) = n := by
  have hdigits : ∀ c ∈ decimal n, c.isDigit = true := fun c hc => isDigit_of_mem_decimal hc
  have hne : ∀ c ∈ decimal n, ∀ d : Char, d.isDigit = false → c ≠ d := by
    rintro c hc d hd rfl
    rw [hdigits c hc] at hd
    cases hd
  have hsign : (decimal n).dropWhile (fun c => c = '-') = decimal n := by
    refine List.dropWhile_eq_self_iff.mpr fun hpos => ?_
    simpa using hne _ (List.getElem_mem hpos) '-' rfl
  have htake : (decimal n).takeWhile Char.isDigit = decimal n := List.takeWhile_eq_self_iff.mpr hdigits
  have hdrop : (decimal n).dropWhile Char.isDigit = [] := List.dropWhile_eq_nil_iff.mpr hdigits
  have hexponent : exponentOf (decimal n) = 0 := by
    have hnone : (decimal n).dropWhile (fun c => c ≠ 'e' && c ≠ 'E') = [] := by
      refine List.dropWhile_eq_nil_iff.mpr fun c hc => ?_
      simp [hne c hc 'e' rfl, hne c hc 'E' rfl]
    rw [exponentOf, hnone]
  have hhead : (decimal n).head? ≠ some '-' := fun h => hne '-' (List.mem_of_mem_head? h) '-' rfl rfl
  rw [tokenValue]
  simp only [hsign, htake, hdrop, fractionDigits, hexponent, List.append_nil, ofDigitChars_decimal, if_neg hhead]
  simp

/-! ## Values -/

/-- A JSON value with such numbers. -/
inductive JsValue where
  | null
  | bool (b : Bool)
  | num (n : JsNumber)
  | str (s : Text)
  | arr (items : List JsValue)
  | obj (members : List (Text × JsValue))

namespace Json

mutual

/-- A value, each of its numbers rounded. -/
def toJs : Json → JsValue
  | .null => .null
  | .bool b => .bool b
  | .num token => .num (JsNumber.of (tokenValue token))
  | .str s => .str s
  | .arr items => .arr (toJsItems items)
  | .obj members => .obj (toJsMembers members)

def toJsItems : List Json → List JsValue
  | [] => []
  | v :: vs => toJs v :: toJsItems vs

def toJsMembers : List (Text × Json) → List (Text × JsValue)
  | [] => []
  | (k, v) :: ms => (k, toJs v) :: toJsMembers ms

end

theorem toJsMembers_eq_map (ms : List (Text × Json)) : toJsMembers ms = ms.map fun m => (m.1, m.2.toJs) := by
  induction ms with
  | nil => rfl
  | cons m ms ih => rw [toJsMembers, ih, List.map_cons]

end Json

/-- The value an object has under a name. -/
def JsValue.field (v : JsValue) (k : Text) : Option JsValue :=
  match v with
  | .obj members => (members.find? fun m => m.1 = k).map (·.2)
  | _ => none

/-- The fields of a value are those of its rounded form. -/
theorem JsValue.field_toJs (v : Json) (k : Text) : v.toJs.field k = (Json.field k v).map Json.toJs := by
  cases v with
  | obj members =>
    rw [Json.toJs, field, Json.field, Json.toJsMembers_eq_map, List.find?_map, Option.map_map, Option.map_map]
    rfl
  | _ => rfl

end Soroscan

import Soroscan.Lib.Separated
import Soroscan.Lib.Utf8

/-!
# Parameters of a URL

A list of names and values as the text of a query, `application/x-www-form-urlencoded`: pairs between ampersands, a name and its
value around an equals sign, a plus for a space, and a percent escape for every byte that is not kept. A `server` leaves out the pairs
with a percent sign that begins no escape, and every pair with a semicolon. It reads what was written.
-/

namespace Soroscan

namespace FormUrl

/-- The percent sign. -/
def percent : UInt8 := 37

def plus : UInt8 := 43

def equals : UInt8 := 61

def space : UInt8 := 32

/-! ## Writing -/

/-- The upper-case hexadecimal digit of a number below 16. -/
def hexDigit (n : UInt8) : UInt8 := if n < 10 then 48 + n else 55 + n

/-- The value of a hexadecimal digit, in either case. -/
def hexValue (b : UInt8) : Option UInt8 :=
  if 48 ≤ b ∧ b ≤ 57 then some (b - 48)
  else if 65 ≤ b ∧ b ≤ 70 then some (b - 55)
  else if 97 ≤ b ∧ b ≤ 102 then some (b - 87)
  else none

/-- The bytes that are written as they are: letters, digits, and four marks. -/
def isKept (b : UInt8) : Bool :=
  (48 ≤ b && b ≤ 57) || (65 ≤ b && b ≤ 90) || (97 ≤ b && b ≤ 122) || b = 42 || b = 45 || b = 46 || b = 95

def escapeByte (b : UInt8) : Bytes :=
  if isKept b then [b] else if b = space then [plus] else [percent, hexDigit (b / 16), hexDigit (b % 16)]

def escape (bs : Bytes) : Bytes := bs.flatMap escapeByte

/-- A name and a value around the first equals sign. -/
def cut (piece : Bytes) : Bytes × Bytes := (piece.takeWhile (· ≠ equals), (piece.dropWhile (· ≠ equals)).drop 1)

/-- The first value of a name. -/
def lookup (name : Bytes) (ps : List (Bytes × Bytes)) : Option Bytes := (ps.find? fun p => p.1 = name).map (·.2)

variable {name name' value : Bytes} {ps : List (Bytes × Bytes)}

end FormUrl

end Soroscan

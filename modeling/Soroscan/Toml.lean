import Soroscan.Basic

/-!
# stellar.toml

`currencyMeta` of `icons.go`: what a domain's stellar.toml says about one asset, read line by line, and the checks on text that an
issuer wrote. A Go string is its bytes; its characters are what `decodeRunes` reads, and a byte that starts no character stands
for the replacement character.

The lower-case mapping of characters is a parameter: the Unicode tables of the Go library.
-/

namespace Soroscan

namespace Icons

/-! ## Strings -/

/-- The bytes of a string constant. -/
def utf8 (s : String) : Bytes := s.toUTF8.data.toList

/-- What a byte that starts no character reads as. -/
def runeError : Char := '\uFFFD'

/-- `unicode.IsSpace`. -/
def isSpace (c : Char) : Bool :=
  (9 ≤ c.toNat && c.toNat ≤ 13) || c = ' ' || c.toNat = 0x85 || c.toNat = 0xA0 || c.toNat = 0x1680 ||
    (0x2000 ≤ c.toNat && c.toNat ≤ 0x200A) || c.toNat = 0x2028 || c.toNat = 0x2029 || c.toNat = 0x202F ||
    c.toNat = 0x205F || c.toNat = 0x3000

/-- The bytes that the spaces at the front of some characters take. -/
def spaceWidth (runes : List (Option Char)) : Nat :=
  ((runes.takeWhile fun r => r.any isSpace).map fun r => (r.getD runeError).utf8Size).sum

/-- `strings.TrimSpace`. -/
def trimSpace (s : Bytes) : Bytes :=
  let t := s.drop (spaceWidth (decodeRunes s))
  t.take (t.length - spaceWidth (decodeRunes t).reverse)

/-- `strings.ToLower`, over the lower-case mapping of characters. -/
def toLower (lower : Char → Char) (s : Bytes) : Bytes :=
  (decodeRunes s).flatMap fun r => String.utf8EncodeChar (lower (r.getD runeError))

/-- `strings.Cut` at a byte. -/
def cutAt (sep : UInt8) (s : Bytes) : Option (Bytes × Bytes) :=
  if sep ∈ s then some (s.takeWhile (· ≠ sep), (s.dropWhile (· ≠ sep)).tail) else none

/-- A value without the spaces around it and without one pair of quotes. -/
def unquote (value : Bytes) : Bytes :=
  let value := trimSpace value
  if 2 ≤ value.length ∧ (value.head? = some 0x22 ∨ value.head? = some 0x27) ∧ value.getLast? = value.head? then
    value.tail.dropLast
  else value

/-- Characters that must not survive into an api response. -/
def isUnsafeRune (r : Char) : Bool :=
  r.toNat < 0x20 || r.toNat = 0x7F || (0x80 ≤ r.toNat && r.toNat ≤ 0x9F) || (0x202A ≤ r.toNat && r.toNat ≤ 0x202E) ||
    (0x2066 ≤ r.toNat && r.toNat ≤ 0x2069) || (0x200B ≤ r.toNat && r.toNat ≤ 0x200F) || r.toNat = 0xFEFF

/-- The safe characters, at most so many of them. -/
def cleanRunes : Nat → List Char → List Char
  | _, [] => []
  | maxRunes, r :: rest =>
    if isUnsafeRune r then cleanRunes maxRunes rest
    else r :: if maxRunes = 1 then [] else cleanRunes (maxRunes - 1) rest

/-- Issuer-written text, fit to be served. -/
def clean (value : Bytes) (maxRunes : Nat) : Bytes :=
  trimSpace ((cleanRunes maxRunes ((decodeRunes value).map fun r => r.getD runeError)).flatMap String.utf8EncodeChar)

/-! ## Domains -/

/-- A letter or digit of a host name. -/
def isAlnum (b : UInt8) : Bool := (97 ≤ b && b ≤ 122) || (48 ≤ b && b ≤ 57)

/-- `[a-z0-9]([a-z0-9-]*[a-z0-9])?` -/
def isLabel (label : Bytes) : Bool :=
  label.head?.any isAlnum && label.getLast?.any isAlnum && label.all fun b => isAlnum b || b = 0x2D

/-- A host name of at least two labels. -/
def domainShape (s : Bytes) : Bool := 2 ≤ (s.splitOn 0x2E).length && (s.splitOn 0x2E).all isLabel

/-! ## Currencies -/

/-- What a section says about its asset. -/
structure TomlEntry where
  name : Bytes
  desc : Bytes
  image : Bytes
  deriving DecidableEq, Repr

/-- The empty entry. -/
def TomlEntry.empty : TomlEntry := ⟨[], [], []⟩

/-- The line parser: the section it is in, and the best matched one so far. -/
structure TomlReader where
  current : TomlEntry
  best : TomlEntry
  codeMatch : Bool
  issuerMatch : Bool
  inCurrency : Bool
  haveBest : Bool
  deriving DecidableEq, Repr

namespace TomlReader

/-- Before the first line. -/
def start : TomlReader := ⟨TomlEntry.empty, TomlEntry.empty, false, false, false, false⟩

def matched (p : TomlReader) : Bool := p.codeMatch && p.issuerMatch

/-- The end of a section. The first matched section with an image wins; otherwise the first matched section stands. -/
def consider (p : TomlReader) : TomlReader × Bool :=
  if !p.matched then (p, false)
  else if p.current.image ≠ [] then ({ p with best := p.current }, true)
  else if !p.haveBest then ({ p with best := p.current, haveBest := true }, false)
  else (p, false)

/-- A line that begins with a bracket begins a section. -/
def beginSection (p : TomlReader) (line : Bytes) : TomlReader :=
  { p with
    inCurrency := decide (line.filter (· ≠ 0x20) = utf8 "[[CURRENCIES]]")
    current := TomlEntry.empty
    codeMatch := false
    issuerMatch := false }

/-- An assignment in a currency section. -/
def assign (lower : Char → Char) (code issuer : Bytes) (p : TomlReader) (key value : Bytes) : TomlReader :=
  let key := toLower lower (trimSpace key)
  if key = utf8 "code" then { p with codeMatch := decide (unquote value = code) }
  else if key = utf8 "issuer" then { p with issuerMatch := decide (unquote value = issuer) }
  else if key = utf8 "name" then { p with current := { p.current with name := unquote value } }
  else if key = utf8 "desc" then { p with current := { p.current with desc := unquote value } }
  else if key = utf8 "image" then { p with current := { p.current with image := unquote value } }
  else p

/-- The lines, one after another. -/
def walkLines (lower : Char → Char) (code issuer : Bytes) : TomlReader → List Bytes → TomlEntry
  | p, [] => p.consider.1.best
  | p, rawLine :: rest =>
    let line := trimSpace rawLine
    if line.head? = some 0x5B then
      if p.consider.2 then p.consider.1.best else walkLines lower code issuer (p.consider.1.beginSection line) rest
    else if !p.inCurrency || line = [] || line.head? = some 0x23 then walkLines lower code issuer p rest
    else
      match cutAt 0x3D line with
      | none => walkLines lower code issuer p rest
      | some (key, value) => walkLines lower code issuer (assign lower code issuer p key value) rest

end TomlReader

/-- What a stellar.toml says about an asset. -/
def currencyMeta (lower : Char → Char) (text code issuer : Bytes) : TomlEntry :=
  TomlReader.walkLines lower code issuer TomlReader.start (text.splitOn 0x0A)

example : currencyMeta id (utf8 "[[ CURRENCIES ]]\ncode='AQUA'\nissuer = \"G\"\nname = Aquarius\n[X]") (utf8 "AQUA") (utf8 "G") =
    ⟨utf8 "Aquarius", [], []⟩ := by decide

end Icons

end Soroscan

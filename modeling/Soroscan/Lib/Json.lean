import Soroscan.Lib.Text
import Mathlib.Data.List.Lex
import Mathlib.Data.List.Sort

/-!
# JSON values, their text, and a reader of the text

A value keeps a number as its token, so no number is rounded, and an object as its members in the order of their names, each
name once: what an object with repeated names means is decided by the reader (`objectOf`, the last one counts).

`marshal` writes a value without spaces and with the escapes of a writer that is safe to embed in HTML. `parseValue` reads one
value from the front of a text and leaves the rest; it takes fuel, and any fuel at least the length of the text is enough
(`Stands.reads`).
-/

namespace Soroscan

/-- A JSON value. -/
inductive Json where
  | null
  | bool (b : Bool)
  | num (token : Text)
  | str (s : Text)
  | arr (items : List Json)
  | obj (members : List (Text × Json))
  deriving Repr

namespace Json

/-! ## Writing -/

/-- A character inside a string literal. `none` is a byte that is no character, which is written as the escape of the
replacement character. -/
def escapeRune : Option Char → Text
  | none => ['\\', 'u', 'f', 'f', 'f', 'd']
  | some c =>
    if c = '"' ∨ c = '\\' then ['\\', c]
    else if c = '\x08' then ['\\', 'b']
    else if c = '\x0c' then ['\\', 'f']
    else if c = '\n' then ['\\', 'n']
    else if c = '\r' then ['\\', 'r']
    else if c = '\t' then ['\\', 't']
    else if c.toNat < 0x20 ∨ c = '<' ∨ c = '>' ∨ c = '&' then
      ['\\', 'u', '0', '0', Nat.digitChar (c.toNat / 16), Nat.digitChar (c.toNat % 16)]
    else if c.toNat = 0x2028 ∨ c.toNat = 0x2029 then ['\\', 'u', '2', '0', '2', Nat.digitChar (c.toNat % 16)]
    else [c]

/-- A string literal over characters and bytes that are none. -/
def quoteRunes (rs : List (Option Char)) : Text := '"' :: rs.flatMap escapeRune ++ ['"']

/-- A string literal. -/
def quote (s : Text) : Text := quoteRunes (s.map some)

mutual

/-- The text of a value. -/
def marshal : Json → Text
  | .null => ['n', 'u', 'l', 'l']
  | .bool true => ['t', 'r', 'u', 'e']
  | .bool false => ['f', 'a', 'l', 's', 'e']
  | .num token => token
  | .str s => quote s
  | .arr [] => ['[', ']']
  | .arr (v :: vs) => '[' :: (marshal v ++ marshalItems vs)
  | .obj [] => ['{', '}']
  | .obj ((k, v) :: ms) => '{' :: (quote k ++ ':' :: (marshal v ++ marshalMembers ms))

/-- The text of the items after the first, and the end of their array. -/
def marshalItems : List Json → Text
  | [] => [']']
  | v :: vs => ',' :: (marshal v ++ marshalItems vs)

/-- The text of the members after the first, and the end of their object. -/
def marshalMembers : List (Text × Json) → Text
  | [] => ['}']
  | (k, v) :: ms => ',' :: (quote k ++ ':' :: (marshal v ++ marshalMembers ms))

end

/-! ## Reading -/

/-- Insert a member into an object in the order of the names; a member of that name is replaced. -/
def insertMember (k : Text) (v : Json) : List (Text × Json) → List (Text × Json)
  | [] => [(k, v)]
  | (k', v') :: ms =>
    if k < k' then (k, v) :: (k', v') :: ms
    else if k = k' then (k, v) :: ms
    else (k', v') :: insertMember k v ms

/-- The object of a list of members in the order they are read: of the members of one name the last one counts. -/
def objectOf (ms : List (Text × Json)) : List (Text × Json) :=
  ms.foldl (fun acc m => insertMember m.1 m.2 acc) []

/-- The text after the white space at its front. -/
def skipSpace (t : Text) : Text := t.dropWhile fun c => c = ' ' ∨ c = '\t' ∨ c = '\r' ∨ c = '\n'

/-- The value of a hexadecimal digit in either case. -/
def hexDigitValue (c : Char) : Option Nat :=
  if 'A' ≤ c ∧ c ≤ 'F' then some (c.toNat - 55) else hexValue c

/-- The code unit that four hexadecimal digits name. -/
def hexUnit (a b c d : Char) : Option Nat :=
  match hexDigitValue a, hexDigitValue b, hexDigitValue c, hexDigitValue d with
  | some w, some x, some y, some z => some (((w * 16 + x) * 16 + y) * 16 + z)
  | _, _, _, _ => none

def replacementChar : Char := '\uFFFD'

/-- The character after a `\u` escape: a pair of surrogate escapes is one character, a surrogate alone is replaced. -/
def readUnicode : Text → Option (Char × Text)
  | a :: b :: c :: d :: t =>
    match hexUnit a b c d with
    | none => none
    | some u =>
      if 0xD800 ≤ u ∧ u < 0xE000 then
        match t with
        | '\\' :: 'u' :: e :: f :: g :: h :: t' =>
          match hexUnit e f g h with
          | some l =>
            if u < 0xDC00 ∧ 0xDC00 ≤ l ∧ l < 0xE000 then
              some (Char.ofNat (0x10000 + (u - 0xD800) * 1024 + (l - 0xDC00)), t')
            else some (replacementChar, t)
          | none => some (replacementChar, t)
        | _ => some (replacementChar, t)
      else some (Char.ofNat u, t)
  | _ => none

/-- The character an escape of one letter names. -/
def simpleEscape : Char → Option Char
  | '"' => some '"'
  | '\\' => some '\\'
  | '/' => some '/'
  | 'b' => some '\x08'
  | 'f' => some '\x0c'
  | 'n' => some '\n'
  | 'r' => some '\r'
  | 't' => some '\t'
  | _ => none

/-- The next character of a string literal, or `none` at its closing quote, and the text after it. -/
def readRune : Text → Option (Option Char × Text)
  | [] => none
  | c :: t =>
    if c = '"' then some (none, t)
    else if c = '\\' then
      match t with
      | 'u' :: t' => (readUnicode t').map fun (r, t'') => (some r, t'')
      | e :: t' => (simpleEscape e).map fun r => (some r, t')
      | [] => none
    else if c.toNat < 0x20 then none
    else some (some c, t)

/-- The characters of a string literal after its opening quote, and the text after the closing one. -/
def readString : Nat → Text → Option (Text × Text)
  | 0, _ => none
  | n + 1, t =>
    match readRune t with
    | none => none
    | some (none, t') => some ([], t')
    | some (some r, t') => (readString n t').map fun (s, t'') => (r :: s, t'')

/-- The minus sign a number may start with, and the text after it. -/
def readSign : Text → Option (Text × Text)
  | '-' :: t => some (['-'], t)
  | t => some ([], t)

/-- The digits a text starts with, at least one, and the text after them. -/
def readDigits (t : Text) : Option (Text × Text) :=
  if t.takeWhile Char.isDigit = [] then none else some (t.takeWhile Char.isDigit, t.dropWhile Char.isDigit)

/-- The integer part of a number: a zero, or digits that do not start with one. -/
def readIntPart : Text → Option (Text × Text)
  | '0' :: t => some (['0'], t)
  | t => readDigits t

/-- The fraction a number may have. -/
def readFraction : Text → Option (Text × Text)
  | '.' :: t => (readDigits t).map fun (ds, t') => ('.' :: ds, t')
  | t => some ([], t)

/-- The sign an exponent may start with. -/
def readExponentSign : Text → Option (Text × Text)
  | '+' :: t => some (['+'], t)
  | t => readSign t

/-- The exponent a number may have. -/
def readExponent : Text → Option (Text × Text)
  | c :: t =>
    if c = 'e' ∨ c = 'E' then
      (readExponentSign t).bind fun (sg, t') => (readDigits t').map fun (ds, t'') => (c :: (sg ++ ds), t'')
    else some ([], c :: t)
  | [] => some ([], [])

/-- The number token a text starts with, and the text after it. -/
def readNumber (t : Text) : Option (Text × Text) :=
  (readSign t).bind fun (sg, t) => (readIntPart t).bind fun (ip, t) => (readFraction t).bind fun (fr, t) =>
    (readExponent t).map fun (ex, t) => (sg ++ ip ++ fr ++ ex, t)

mutual

/-- One value from the front of a text, and the text after it. -/
def parseValue : Nat → Text → Option (Json × Text)
  | 0, _ => none
  | n + 1, t =>
    match skipSpace t with
    | 'n' :: 'u' :: 'l' :: 'l' :: t' => some (.null, t')
    | 't' :: 'r' :: 'u' :: 'e' :: t' => some (.bool true, t')
    | 'f' :: 'a' :: 'l' :: 's' :: 'e' :: t' => some (.bool false, t')
    | '"' :: t' => (readString t'.length t').map fun (s, t'') => (.str s, t'')
    | '[' :: t' =>
      match skipSpace t' with
      | ']' :: t'' => some (.arr [], t'')
      | t'' => (parseValue n t'').bind fun (v, u) => (parseItems n u).map fun (vs, u') => (.arr (v :: vs), u')
    | '{' :: t' =>
      match skipSpace t' with
      | '}' :: t'' => some (.obj [], t'')
      | t'' => (parseMember n t'').bind fun (m, u) => (parseMembers n u).map fun (ms, u') => (.obj (objectOf (m :: ms)), u')
    | t' => (readNumber t').map fun (token, t'') => (.num token, t'')

/-- The items after the first, to the end of their array. -/
def parseItems : Nat → Text → Option (List Json × Text)
  | 0, _ => none
  | n + 1, t =>
    match skipSpace t with
    | ']' :: t' => some ([], t')
    | ',' :: t' => (parseValue n t').bind fun (v, u) => (parseItems n u).map fun (vs, u') => (v :: vs, u')
    | _ => none

/-- One member of an object: a name, a colon and a value. -/
def parseMember : Nat → Text → Option ((Text × Json) × Text)
  | 0, _ => none
  | n + 1, t =>
    match skipSpace t with
    | '"' :: t' =>
      (readString t'.length t').bind fun (k, u) =>
        match skipSpace u with
        | ':' :: u' => (parseValue n u').map fun (v, u'') => ((k, v), u'')
        | _ => none
    | _ => none

/-- The members after the first, to the end of their object. -/
def parseMembers : Nat → Text → Option (List (Text × Json) × Text)
  | 0, _ => none
  | n + 1, t =>
    match skipSpace t with
    | '}' :: t' => some ([], t')
    | ',' :: t' => (parseMember n t').bind fun (m, u) => (parseMembers n u).map fun (ms, u') => (m :: ms, u')
    | _ => none

end

-- Without fuel nothing is read.
example (t : Text) : parseValue 0 t = none ∧ parseItems 0 t = none ∧ parseMember 0 t = none ∧ parseMembers 0 t = none :=
  ⟨by rw [parseValue], by rw [parseItems], by rw [parseMember], by rw [parseMembers]⟩

/-- The first value of a text; what follows it is not read. -/
def parse (t : Text) : Option Json := (parseValue (t.length + 1) t).map (·.1)

end Json

end Soroscan

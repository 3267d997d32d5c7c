import Soroscan.Lib.Text
import Soroscan.Lib.Utf8

/-!
# Strings of code units

A string of the web platform is a list of 16-bit code units; a character past the sixteenth bit is two of them, and a cut between
the two leaves a lone one. `textDecode` is the platform's reader of UTF-8: bytes that make no character become replacement
characters, one for each longest run that began a character, and a byte order mark at the front is dropped.
-/

namespace Soroscan

/-- A string: its code units. -/
abbrev JsString : Type := List UInt16

/-- The code units of a code point. -/
def unitsOf (c : Nat) : JsString :=
  if c < 0x10000 then [UInt16.ofNat c]
  else [UInt16.ofNat (0xD800 + (c - 0x10000) / 0x400), UInt16.ofNat (0xDC00 + (c - 0x10000) % 0x400)]

/-- The string of a text. -/
def js (t : Text) : JsString := t.flatMap fun c => unitsOf c.toNat

/-- The characters of a string, unit by unit. A surrogate is no character, and reads as the null character. -/
def charsOf (s : JsString) : Text := s.map fun u => Char.ofNat u.toNat

/-! ## Reading UTF-8 -/

/-- Where the reader stands in a character: how many bytes are still needed, the bounds of the next one, and the bits so far. -/
structure TextDecoder where
  needed : Nat
  lower : UInt8
  upper : UInt8
  codePoint : Nat

namespace TextDecoder

/-- Between two characters. -/
def start : TextDecoder := ⟨0, 0x80, 0xBF, 0⟩

/-- The replacement character. -/
def replacement : Nat := 0xFFFD

/-- The first byte of a character, and the code points it completes. -/
def lead (b : UInt8) : TextDecoder × List Nat :=
  if b < 0x80 then (start, [b.toNat])
  else if 0xC2 ≤ b ∧ b ≤ 0xDF then (⟨1, 0x80, 0xBF, b.toNat % 32⟩, [])
  else if 0xE0 ≤ b ∧ b ≤ 0xEF then (⟨2, secondLow b, secondHigh b, b.toNat % 16⟩, [])
  else if 0xF0 ≤ b ∧ b ≤ 0xF4 then (⟨3, secondLow b, secondHigh b, b.toNat % 8⟩, [])
  else (start, [replacement])

/-- The next byte. One that does not continue the character ends it with a replacement, and is looked at again as a first. -/
def feed (d : TextDecoder) (b : UInt8) : TextDecoder × List Nat :=
  if d.needed = 0 then lead b
  else if b < d.lower ∨ d.upper < b then ((lead b).1, replacement :: (lead b).2)
  else if d.needed = 1 then (start, [d.codePoint * 64 + tailBits b])
  else (⟨d.needed - 1, 0x80, 0xBF, d.codePoint * 64 + tailBits b⟩, [])

/-- The code points of the bytes from here on. -/
def codePoints (d : TextDecoder) : Bytes → List Nat
  | [] => if d.needed = 0 then [] else [replacement]
  | b :: t => (d.feed b).2 ++ codePoints (d.feed b).1 t

/-- The code points without the byte order mark. -/
def dropMark : List Nat → List Nat
  | 0xFEFF :: cs => cs
  | cs => cs

end TextDecoder

/-- `TextDecoder.decode`: the string of a byte string. -/
def textDecode (bs : Bytes) : JsString := (TextDecoder.dropMark (TextDecoder.start.codePoints bs)).flatMap unitsOf

/-- A byte order mark, a character cut short by the next one, and a character outside the first plane. -/
example : textDecode [0xEF, 0xBB, 0xBF, 0xE2, 0x82, 0x41, 0xF0, 0x9F, 0x98, 0x80] = [0xFFFD, 0x41, 0xD83D, 0xDE00] := by
  decide

/-! ## Characters of the first plane -/

/-- A text whose characters are single units is read back unit by unit. -/
theorem charsOf_js {t : Text} (h : ∀ c ∈ t, c.toNat < 0x10000) : charsOf (js t) = t := by
  induction t with
  | nil => rfl
  | cons c t ih =>
    have hc := h c List.mem_cons_self
    have hunits : js (c :: t) = UInt16.ofNat c.toNat :: js t := by
      rw [js, List.flatMap_cons, unitsOf, if_pos hc]
      rfl
    have hchar : Char.ofNat (UInt16.ofNat c.toNat).toNat = c := by
      rw [UInt16.toNat_ofNat', Nat.mod_eq_of_lt hc, Char.ofNat_toNat]
    rw [hunits, charsOf, List.map_cons, hchar]
    exact congrArg _ (ih fun c' hc' => h c' (List.mem_cons_of_mem _ hc'))

end Soroscan

import Soroscan.ToXdr

/-!
# Signer hints

`signatures.ts`: the hints of a transaction's signatures, read from the end of its envelope. The vector of decorated signatures
is the last field of every envelope, and its length follows from those of the signatures that Horizon reports.
-/

namespace Soroscan

namespace Signatures

/-- `DecoratedSignature`: the hint of a signer in hexadecimal, and a signature as Horizon reports it. -/
structure DecoratedSignature where
  hint : Text
  signature : Text
  deriving DecidableEq, Repr

/-- `bytesOf`. -/
def bytesOf (base64 : Text) : Option Bytes := Base64.atob base64

/-- A byte of an array; one past the end counts as zero in a shift. -/
def byteAt (bytes : Bytes) (pos : Nat) : Nat := (bytes.getD pos 0).toNat

/-- `u32At`. The final shift makes the number unsigned. -/
def u32At (bytes : Bytes) (pos : Nat) : Nat :=
  byteAt bytes pos <<< 24 ||| byteAt bytes (pos + 1) <<< 16 ||| byteAt bytes (pos + 2) <<< 8 ||| byteAt bytes (pos + 3)

/-- `hexOf`. -/
def hexOf (bytes : Bytes) : Text := hexText bytes

/-- `padded`: a length filled up to whole words. -/
def padded (length : Nat) : Nat := length + (4 - length % 4) % 4

/-- `sameBytes`. -/
def sameBytes (a b : Bytes) : Bool :=
  if a.length ≠ b.length then false else (List.range a.length).all fun index => decide (a[index]? = b[index]?)

/-- The loop of `extractSignatureHints` from a position on: the signatures that are expected, each with its text. -/
def readHints (envelope : Bytes) : Nat → List (Bytes × Text) → Option (List DecoratedSignature)
  | _, [] => some []
  | pos, (expected, signature) :: rest =>
    let hint := (envelope.drop pos).take 4
    if u32At envelope (pos + 4) ≠ expected.length then none
    else
      let body := (envelope.drop (pos + 8)).take expected.length
      if !sameBytes body expected then none
      else (readHints envelope (pos + 8 + padded expected.length) rest).map fun out => ⟨hexOf hint, signature⟩ :: out

/-- The length of the vector of decorated signatures. -/
def tailLength (expected : List Bytes) : Nat := 4 + expected.foldl (fun sum bytes => sum + (8 + padded bytes.length)) 0

/-- `DecoratedSignature` of the chain: the last four bytes of a public key, and a signature. -/
structure XdrDecoratedSignature where
  hint : Bytes
  signature : Bytes
  hint_length : hint.length = 4
  deriving DecidableEq, Repr

end Signatures

end Soroscan

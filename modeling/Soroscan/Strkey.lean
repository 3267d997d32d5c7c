import Soroscan.Basic
import Soroscan.Lib.Base32

/-!
# Strkeys

The text form of an address: a version byte, the payload and its checksum in base 32. `encodeStrkey` is the encoder of the
Stellar libraries, `decodeStrkey` the reader of `store.go`.
-/

namespace Soroscan

/-- The version byte of a G address. -/
def strkeyVersionAccount : UInt8 := UInt8.ofNat (6 <<< 3)

/-- The version byte of a C address. -/
def strkeyVersionContract : UInt8 := UInt8.ofNat (2 <<< 3)

/-- The version byte of an M address. -/
def strkeyVersionMuxed : UInt8 := UInt8.ofNat (12 <<< 3)

/-- The version byte of a B address. -/
def strkeyVersionClaimableBalance : UInt8 := UInt8.ofNat (1 <<< 3)

/-- The version byte of an L address. -/
def strkeyVersionLiquidityPool : UInt8 := UInt8.ofNat (11 <<< 3)

/-- One of the eight rounds of the checksum on a byte. -/
def crcRound (crc : BitVec 16) : BitVec 16 :=
  if crc &&& 0x8000#16 ≠ 0 then (crc <<< 1) ^^^ 0x1021#16 else crc <<< 1

/-- `crc16`: the CRC16-XModem checksum of the strkey specification. -/
def crc16 (data : Bytes) : BitVec 16 :=
  data.foldl (fun crc b => Nat.repeat crcRound 8 (crc ^^^ (b.toBitVec.setWidth 16 : BitVec 16) <<< (8 : Nat))) 0

/-- The two bytes of a checksum, the low one first. -/
def crcBytes (crc : BitVec 16) : Bytes := [UInt8.ofNat (crc.toNat % 256), UInt8.ofNat (crc.toNat / 256)]

/-- The strkey of a payload under a version byte. -/
def encodeStrkey (version : UInt8) (payload : Bytes) : Text :=
  Base32.encode (version :: payload ++ crcBytes (crc16 (version :: payload)))

/-- `decodeStrkey`: the 32-byte payload of a strkey of the version, if the length and the checksum are right. -/
def decodeStrkey (s : Text) (version : UInt8) : Option Bytes32 :=
  match Base32.decode s with
  | none => none
  | some raw =>
    if h : raw.length = 35 then
      if raw.head? ≠ some version then none
      else if crcBytes (crc16 (raw.take 33)) ≠ raw.drop 33 then none
      else some ⟨(raw.take 33).drop 1, by simp [h]⟩
    else none

/-- The C address of a contract id. -/
def contractStrkey (id : Bytes32) : Text := encodeStrkey strkeyVersionContract id.bytes

/-- A strkey is read back as its payload. -/
@[simp] theorem decodeStrkey_encodeStrkey (version : UInt8) (payload : Bytes32) :
    decodeStrkey (encodeStrkey version payload.bytes) version = some payload := by
  have hlen : (version :: payload.bytes).length = 33 := by rw [List.length_cons, payload.length_eq]
  have htake : (version :: payload.bytes ++ crcBytes (crc16 (version :: payload.bytes))).take 33 =
      version :: payload.bytes := List.take_left' hlen
  have hdrop : (version :: payload.bytes ++ crcBytes (crc16 (version :: payload.bytes))).drop 33 =
      crcBytes (crc16 (version :: payload.bytes)) := List.drop_left' hlen
  unfold decodeStrkey encodeStrkey
  rw [Base32.decode_encode]
  simp only
  have hl : (version :: payload.bytes ++ crcBytes (crc16 (version :: payload.bytes))).length = 35 := by
    rw [List.length_append, hlen, crcBytes, List.length_cons, List.length_singleton]
  rw [dif_pos hl, if_neg (by simp), if_neg (by rw [htake, hdrop]; simp)]
  apply congrArg some
  apply Bytes32.ext_bytes
  show ((version :: payload.bytes ++ crcBytes (crc16 (version :: payload.bytes))).take 33).drop 1 = payload.bytes
  rw [htake, List.drop_one, List.tail_cons]

/-- The payload of a C address is the contract id it was made from. -/
@[simp] theorem decodeStrkey_contractStrkey (id : Bytes32) :
    decodeStrkey (contractStrkey id) strkeyVersionContract = some id := decodeStrkey_encodeStrkey _ id

/-- Different contract ids have different C addresses. -/
theorem contractStrkey_injective {a b : Bytes32} (h : contractStrkey a = contractStrkey b) : a = b := by
  have := decodeStrkey_contractStrkey a
  rw [h, decodeStrkey_contractStrkey] at this
  exact (Option.some.inj this).symm

end Soroscan

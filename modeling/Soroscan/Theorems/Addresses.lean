import Soroscan.Lib.Crc
import Soroscan.Strkey

/-!
# Addresses are decoded faithfully

The strkey of a payload is read back, no other text of digits is read as the same payload, and one wrong character is always caught. A
character is five bits, in one byte or in two in a row. While these are under the checksum, it changes; where one of them is the last
byte under it and the other the first of the checksum, a change of the lower half of the byte changes other bits of the checksum than
the one the character holds; and a character of the checksum alone changes nothing under it.
-/

namespace Soroscan

/-- 56 digits of base 32. -/
structure IsBase32 (s : Text) : Prop where
  length_eq : s.length = 56
  digits : ∀ c ∈ s, c ∈ Base32.alphabet

/-! ## The checksum as a division -/

/-- The divisor of the checksum. -/
def crcDivisor : BitVec 16 := 0x1021#16

theorem crcRound_eq (crc : BitVec 16) : crcRound crc = Crc.shift crcDivisor crc := by
  have hmsb : (crc &&& 0x8000#16 ≠ 0) = (crc.msb = true) := by
    have htwoPow : (0x8000#16) = BitVec.twoPow 16 15 := rfl
    rw [htwoPow, BitVec.and_twoPow, BitVec.msb_eq_getLsbD_last]
    cases crc.getLsbD 15
    · simp
    · simp
  rw [crcRound, Crc.shift]
  exact if_congr (iff_of_eq hmsb) rfl rfl

theorem crc16_eq (data : Bytes) : crc16 data = data.foldl (Crc.feed crcDivisor) 0 := by
  have hround : crcRound = Crc.shift crcDivisor := funext crcRound_eq
  rw [crc16, hround]
  rfl

theorem crcBytes_injective {x y : BitVec 16} (h : crcBytes x = crcBytes y) : x = y := by
  have hx := x.isLt
  have hy := y.isLt
  rw [crcBytes, crcBytes, List.cons.injEq, List.cons.injEq] at h
  have hlow := congrArg UInt8.toNat h.1
  have hhigh := congrArg UInt8.toNat h.2.1
  rw [UInt8.toNat_ofNat', UInt8.toNat_ofNat'] at hlow hhigh
  exact BitVec.eq_of_toNat_eq (by omega)

/-! ## What a strkey holds -/

/-- The bytes of a strkey: the version and the payload, and their checksum. -/
def strkeyBytes (data : Bytes) : Bytes := data ++ crcBytes (crc16 data)

/-- The payload that is read is the one in the bytes. -/
theorem decode_of_decodeStrkey {s : Text} {version : UInt8} {payload : Bytes32} (h : decodeStrkey s version = some payload) :
    Base32.decode s = some (strkeyBytes (version :: payload.bytes)) := by
  rw [decodeStrkey] at h
  cases hdecode : Base32.decode s with
  | none =>
    rw [hdecode] at h
    cases h
  | some raw =>
    rw [hdecode] at h
    simp only at h
    split at h
    · rename_i hlength
      split at h
      · cases h
      · rename_i hversion
        split at h
        · cases h
        · rename_i hcrc
          rw [ne_eq, not_not] at hversion hcrc
          obtain ⟨rest, rfl⟩ := List.head?_eq_some_iff.mp hversion
          have hpayload : rest.take 32 = payload.bytes := congrArg Bytes32.bytes (Option.some.inj h)
          rw [strkeyBytes, ← hpayload, ← List.take_succ_cons, hcrc, List.take_append_drop]
    · cases h

/-- A text of digits that is read as a payload is its strkey. -/
theorem eq_encodeStrkey {s : Text} {version : UInt8} {payload : Bytes32} (hs : IsBase32 s)
    (h : decodeStrkey s version = some payload) : s = encodeStrkey version payload.bytes := by
  obtain ⟨ns, rfl, hns⟩ := Base32.exists_values hs.digits
  have hbytes := (Base32.decode_map_digit hns).symm.trans (decode_of_decodeStrkey h)
  have hlength : ns.length = 8 * 7 := List.length_map (f := Base32.digit) ▸ hs.length_eq
  have hvalues := Base32.values_bytesOf hlength hns
  rw [Option.some.inj hbytes] at hvalues
  rw [encodeStrkey, Base32.encode, ← hvalues]
  rfl

/-- A strkey is a text of digits. -/
theorem isBase32_encodeStrkey (version : UInt8) (payload : Bytes32) : IsBase32 (encodeStrkey version payload.bytes) where
  length_eq := by
    refine Base32.length_encode (m := 7) ?_
    rw [List.length_append, List.length_cons, payload.length_eq]
    rfl
  digits := fun _ hc => Base32.mem_alphabet_of_mem_encode hc

/-! ## One wrong character -/

/-- Bytes under the checksum that agree but for two in a row, with one checksum, are the same. -/
theorem eq_of_agree {data data' : Bytes} {k : Nat} (hk : k + 1 < data.length) (hlength : data.length = data'.length)
    (hagree : ∀ j, j ≠ k → j ≠ k + 1 → data'[j]? = data[j]?) (hcrc : crc16 data = crc16 data') : data = data' := by
  have hcut : ∀ (d : Bytes) (h : k + 1 < d.length), d = d.take k ++ d[k] :: d[k + 1] :: d.drop (k + 2) := by
    intro d h
    rw [List.getElem_cons_drop, List.getElem_cons_drop, List.take_append_drop]
  have hfront : data'.take k = data.take k := by
    refine List.ext_getElem? fun j => ?_
    rw [List.getElem?_take, List.getElem?_take]
    split
    · rename_i hj
      exact hagree j (by omega) (by omega)
    · rfl
  have hback : data'.drop (k + 2) = data.drop (k + 2) := by
    refine List.ext_getElem? fun j => ?_
    rw [List.getElem?_drop, List.getElem?_drop]
    exact hagree _ (by omega) (by omega)
  have hdata := hcut data hk
  have hdata' := hcut data' (hlength ▸ hk)
  rw [hfront, hback] at hdata'
  rw [crc16_eq, crc16_eq] at hcrc
  conv at hcrc =>
    rw [hdata, hdata']
  obtain ⟨hfirst, hsecond⟩ := Crc.foldl_feed_pair (by decide) 0 _ _ hcrc
  rw [hdata, hdata', hfirst, hsecond]

/-- No change of the lower half of the last byte changes just the bit of the checksum that shares a character with it. -/
theorem nibble_shifts : ∀ e : Fin 16, Crc.shifts crcDivisor 8 (BitVec.ofNat 16 e.val <<< (8 : Nat)) &&& 0xFF7F#16 = 0#16 → e = 0 := by
  decide

/-- The character that is the lower half of the last byte and the first bit of the checksum. -/
theorem eq_of_agree_last {front : Bytes} {a a' : UInt8} (hbyte : a.toNat / 16 = a'.toNat / 16)
    (hlow : (crc16 (front ++ [a])).toNat % 128 = (crc16 (front ++ [a'])).toNat % 128)
    (hhigh : (crc16 (front ++ [a])).toNat / 256 = (crc16 (front ++ [a'])).toNat / 256) : a = a' := by
  have hbits : (crc16 (front ++ [a]) ^^^ crc16 (front ++ [a'])) &&& 0xFF7F#16 = 0#16 := by
    generalize crc16 (front ++ [a]) = x at hlow hhigh
    generalize crc16 (front ++ [a']) = y at hlow hhigh
    have hsame : ∀ j, j ≠ 7 → x.getLsbD j = y.getLsbD j := by
      intro j hj
      rw [BitVec.getLsbD, BitVec.getLsbD]
      rcases Nat.lt_or_gt_of_ne hj with hj | hj
      · have hbit := congrArg (fun n => n.testBit j) hlow
        simpa only [show (128 : Nat) = 2 ^ 7 by rfl, Nat.testBit_mod_two_pow, hj, decide_true, Bool.true_and] using hbit
      · obtain ⟨i, rfl⟩ := Nat.exists_eq_add_of_le' (show 8 ≤ j from hj)
        have hbit := congrArg (fun n => n.testBit i) hhigh
        simpa only [show (256 : Nat) = 2 ^ 8 by rfl, Nat.testBit_div_two_pow] using hbit
    refine BitVec.eq_of_getLsbD_eq fun j hj => ?_
    rw [BitVec.getLsbD_and, BitVec.getLsbD_xor, BitVec.getLsbD_zero]
    by_cases hseven : j = 7
    · rw [hseven]
      exact Bool.and_false _
    · rw [hsame j hseven, Bool.xor_self, Bool.false_and]
  have hnibble : (a ^^^ a').toNat < 16 := by
    rw [UInt8.toNat_xor]
    refine Nat.lt_pow_two_of_testBit (n := 4) _ fun j hj => ?_
    obtain ⟨i, rfl⟩ := Nat.exists_eq_add_of_le' hj
    have hbit := congrArg (fun n => n.testBit i) hbyte
    simp only [show (16 : Nat) = 2 ^ 4 by rfl, Nat.testBit_div_two_pow] at hbit
    rw [Nat.testBit_xor, hbit, Bool.xor_self]
  have hwidth : ((a ^^^ a').toBitVec.setWidth 16 : BitVec 16) = BitVec.ofNat 16 (a ^^^ a').toNat := by
    refine BitVec.eq_of_toNat_eq ?_
    rw [BitVec.toNat_setWidth, BitVec.toNat_ofNat]
    rfl
  rw [crc16_eq, crc16_eq, Crc.foldl_feed_last, hwidth] at hbits
  have hzero := nibble_shifts ⟨_, hnibble⟩ hbits
  have hvalue : (a ^^^ a').toNat = 0 := congrArg Fin.val hzero
  exact UInt8.xor_eq_zero_iff.mp (UInt8.toNat_inj.mp hvalue)

/-- The last group of a strkey: three bytes under the checksum, and the two of the checksum. -/
theorem last_group {data front : Bytes} {p q r s t u v w : Nat} (hdata : data.length = 33) (hfront : front.length = 30)
    (h : strkeyBytes data = front ++ Base32.join p q r s t u v w) :
    ∃ a b, data = (front ++ [a, b]) ++ [UInt8.ofNat (s * 16 + t / 2)] ∧
      a = UInt8.ofNat (p * 8 + q / 4) ∧ b = UInt8.ofNat (q * 64 + r * 2 + s / 16) ∧
      (crc16 data).toNat % 256 = (t * 128 + u * 4 + v / 8) % 256 ∧ (crc16 data).toNat / 256 = (v * 32 + w) % 256 := by
  have hcrc := (crc16 data).isLt
  have hcut : strkeyBytes data = (front ++ [UInt8.ofNat (p * 8 + q / 4), UInt8.ofNat (q * 64 + r * 2 + s / 16)] ++
      [UInt8.ofNat (s * 16 + t / 2)]) ++ [UInt8.ofNat (t * 128 + u * 4 + v / 8), UInt8.ofNat (v * 32 + w)] := by
    rw [h, Base32.join, List.append_assoc, List.append_assoc]
    rfl
  obtain ⟨hunder, hchecksum⟩ := List.append_inj (hcut : data ++ crcBytes (crc16 data) = _) (by simp [hdata, hfront])
  refine ⟨_, _, hunder, rfl, rfl, ?_⟩
  rw [crcBytes, List.cons.injEq, List.cons.injEq] at hchecksum
  have hlow := congrArg UInt8.toNat hchecksum.1
  have hhigh := congrArg UInt8.toNat hchecksum.2.1
  rw [UInt8.toNat_ofNat', UInt8.toNat_ofNat'] at hlow hhigh
  omega

/-- The bytes before and behind a wrong character. -/
theorem eq_of_set {data data' : Bytes} {ns : List Nat} {i n : Nat} (hdata : data.length = 33) (hdata' : data'.length = 33)
    (hns : ns.length = 8 * 7) (hlt : ∀ m ∈ ns, m < 32) (hn : n < 32) (hi : i < 56) (hbytes : Base32.bytesOf ns = strkeyBytes data)
    (hbytes' : Base32.bytesOf (ns.set i n) = strkeyBytes data') : data = data' := by
  have hagree : ∀ k, ¬(8 * k < 5 * i + 5 ∧ 5 * i < 8 * k + 8) → (strkeyBytes data')[k]? = (strkeyBytes data)[k]? := by
    intro k hk
    rw [← hbytes, ← hbytes']
    exact Base32.getElem?_bytesOf_set hns n hk
  have hunder : ∀ k, k < 33 → ¬(8 * k < 5 * i + 5 ∧ 5 * i < 8 * k + 8) → data'[k]? = data[k]? := by
    intro k hk hbits
    have hsame := hagree k hbits
    rwa [strkeyBytes, strkeyBytes, List.getElem?_append_left (by omega), List.getElem?_append_left (by omega)] at hsame
  have hbeyond : ∀ k, 33 ≤ k → data'[k]? = data[k]? := by
    intro k hk
    rw [List.getElem?_eq_none (by omega), List.getElem?_eq_none (by omega)]
  have hchecksum : ∀ k, ¬(8 * (33 + k) < 5 * i + 5 ∧ 5 * i < 8 * (33 + k) + 8) →
      (crcBytes (crc16 data'))[k]? = (crcBytes (crc16 data))[k]? := by
    intro k hbits
    have hsame := hagree (33 + k) hbits
    rwa [strkeyBytes, strkeyBytes, List.getElem?_append_right (by omega), List.getElem?_append_right (by omega), hdata, hdata',
      Nat.add_sub_cancel_left] at hsame
  rcases Nat.lt_trichotomy i 52 with hlow | rfl | hhigh
  · -- the character is in two bytes under the checksum
    have hcrc : crcBytes (crc16 data') = crcBytes (crc16 data) := List.ext_getElem? fun k => hchecksum k (by omega)
    refine eq_of_agree (k := 5 * i / 8) (by omega) (by omega) (fun j hj hj' => ?_) (crcBytes_injective hcrc).symm
    rcases Nat.lt_or_ge j 33 with hlt | hge
    · exact hunder j hlt (by omega)
    · exact hbeyond j hge
  · -- the character is in the last byte under the checksum and the first of the checksum
    obtain ⟨p, q, r, s, t, u, v, w, rest, hgroup, hrest⟩ := Base32.exists_group (m := 0) (show (ns.drop 48).length = 8 * (0 + 1) by
      rw [List.length_drop, hns])
    have hcut : ns = ns.take 48 ++ [p, q, r, s, t, u, v, w] := by
      rw [List.length_eq_zero_iff.mp hrest] at hgroup
      rw [← hgroup, List.take_append_drop]
    have htake : (ns.take 48).length = 8 * 6 := by rw [List.length_take, hns]; rfl
    have hset : ns.set 52 n = ns.take 48 ++ [p, q, r, s, n, u, v, w] := by
      conv_lhs => rw [hcut, List.set_append_right _ _ (by rw [htake]; decide), htake]
      rfl
    have ht : t < 32 := hlt t (by rw [hcut]; simp)
    have hfront := Base32.length_bytesOf htake
    rw [hset, Base32.bytesOf_append htake] at hbytes'
    rw [hcut, Base32.bytesOf_append htake] at hbytes
    obtain ⟨a, b, hunder, ha, hb, hlow, hhigh⟩ := last_group hdata hfront hbytes.symm
    obtain ⟨a', b', hunder', ha', hb', hlow', hhigh'⟩ := last_group hdata' hfront hbytes'.symm
    rw [← ha] at ha'
    rw [← hb] at hb'
    rw [ha', hb'] at hunder'
    rw [hunder] at hlow hhigh
    rw [hunder'] at hlow' hhigh'
    have hbyte : UInt8.ofNat (s * 16 + t / 2) = UInt8.ofNat (s * 16 + n / 2) := by
      refine @eq_of_agree_last (Base32.bytesOf (ns.take 48) ++ [a, b]) _ _ ?_ (by omega) (by omega)
      rw [UInt8.toNat_ofNat', UInt8.toNat_ofNat']
      omega
    rw [hunder, hunder', hbyte]
  · -- the character is in the checksum
    refine List.ext_getElem? fun j => ?_
    rcases Nat.lt_or_ge j 33 with hlt | hge
    · exact (hunder j hlt (by omega)).symm
    · exact (hbeyond j hge).symm

/-- No version takes a strkey with one wrong character. -/
theorem decodeStrkey_set {s : Text} {version : UInt8} {payload : Bytes32} (hs : IsBase32 s)
    (h : decodeStrkey s version = some payload) {i : Nat} (hi : i < 56) {c : Char} (hc : c ∈ Base32.alphabet) (hne : s[i]? ≠ some c)
    (version' : UInt8) : decodeStrkey (s.set i c) version' = none := by
  by_contra hnone
  obtain ⟨payload', h'⟩ := Option.ne_none_iff_exists'.mp hnone
  obtain ⟨ns, rfl, hlt⟩ := Base32.exists_values hs.digits
  obtain ⟨n, hn, rfl⟩ := Base32.exists_value hc
  have hlength : ns.length = 8 * 7 := List.length_map (f := Base32.digit) ▸ hs.length_eq
  have hltset : ∀ m ∈ ns.set i n, m < 32 := fun m hmem => by
    rcases List.mem_or_eq_of_mem_set hmem with hmem | rfl
    · exact hlt m hmem
    · exact hn
  rw [← List.map_set] at h'
  have hbytes := Option.some.inj ((Base32.decode_map_digit hlt).symm.trans (decode_of_decodeStrkey h))
  have hbytes' := Option.some.inj ((Base32.decode_map_digit hltset).symm.trans (decode_of_decodeStrkey h'))
  have hdata := eq_of_set (by rw [List.length_cons, payload.length_eq]) (by rw [List.length_cons, payload'.length_eq]) hlength hlt hn hi
    hbytes hbytes'
  -- the bytes are the same, and so are the digits
  have hvalues := Base32.values_bytesOf hlength hlt
  have hvalues' := Base32.values_bytesOf (by rw [List.length_set, hlength]) hltset
  rw [hbytes] at hvalues
  rw [hbytes', ← hdata, hvalues] at hvalues'
  refine hne ?_
  rw [List.getElem?_map, hvalues', List.getElem?_set_self (by omega), Option.map_some]

/-- Addresses are decoded faithfully: the strkey of a payload is read back as it, two texts of digits are never read as one payload
under one version, and a text of digits with one wrong character is never read where the right one is. -/
theorem addresses_faithful :
    (∀ version (payload : Bytes32), decodeStrkey (encodeStrkey version payload.bytes) version = some payload) ∧
      (∀ s t version payload, IsBase32 s → IsBase32 t → decodeStrkey s version = some payload →
        decodeStrkey t version = some payload → s = t) ∧
      ∀ s version payload, IsBase32 s → decodeStrkey s version = some payload →
        ∀ i c, i < 56 → c ∈ Base32.alphabet → s[i]? ≠ some c → ∀ version', decodeStrkey (s.set i c) version' = none :=
  ⟨decodeStrkey_encodeStrkey, fun _ _ _ _ hs ht h h' => (eq_encodeStrkey hs h).trans (eq_encodeStrkey ht h').symm,
    fun _ _ _ hs h _ _ hi hc hne => decodeStrkey_set hs h hi hc hne⟩

/-- The address of a contract, its first character mistyped. -/
theorem addresses_faithful_mistyped : decodeStrkey ((contractStrkey Bytes32.zero).set 0 'G') strkeyVersionAccount = none :=
  addresses_faithful.2.2 _ _ _ (isBase32_encodeStrkey strkeyVersionContract Bytes32.zero)
    (addresses_faithful.1 strkeyVersionContract Bytes32.zero) 0 'G' (by decide) (by decide) (by decide) _

end Soroscan

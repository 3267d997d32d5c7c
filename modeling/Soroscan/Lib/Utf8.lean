import Mathlib.Data.List.Basic
import Mathlib.Tactic

/-!
# Characters of a byte string

`decodeRunes` reads a byte string as UTF-8, one character after another. A byte that starts no character is a `none` of its
own, and reading goes on at the next byte: overlong forms, surrogates and values past the last character start none.
-/

namespace Soroscan

abbrev Bytes : Type := List UInt8

/-- A byte that continues a character. -/
def isTail (b : UInt8) : Bool := 0x80 ≤ b && b ≤ 0xBF

/-- The six low bits of a byte that continues a character. -/
def tailBits (b : UInt8) : Nat := b.toNat % 64

/-- The least value of the second byte of a character of three or four bytes. -/
def secondLow (a : UInt8) : UInt8 := if a = 0xE0 then 0xA0 else if a = 0xF0 then 0x90 else 0x80

/-- The greatest value of the second byte of a character of three or four bytes. -/
def secondHigh (a : UInt8) : UInt8 := if a = 0xED then 0x9F else if a = 0xF4 then 0x8F else 0xBF

/-- A byte that may follow the first byte of a character of three or four bytes. -/
def isSecond (a b : UInt8) : Bool := secondLow a ≤ b && b ≤ secondHigh a

/-- The characters of a byte string; `none` is a byte that starts no character. -/
def decodeRunes : Bytes → List (Option Char)
  | [] => []
  | a :: t =>
    if a < 0x80 then some (Char.ofNat a.toNat) :: decodeRunes t
    else if 0xC2 ≤ a ∧ a ≤ 0xDF then
      match t with
      | b :: t' =>
        if isTail b then some (Char.ofNat (a.toNat % 32 * 64 + tailBits b)) :: decodeRunes t'
        else none :: decodeRunes (b :: t')
      | [] => [none]
    else if 0xE0 ≤ a ∧ a ≤ 0xEF then
      match t with
      | b :: c :: t' =>
        if isSecond a b && isTail c then
          some (Char.ofNat ((a.toNat % 16 * 64 + tailBits b) * 64 + tailBits c)) :: decodeRunes t'
        else none :: decodeRunes (b :: c :: t')
      | t => none :: decodeRunes t
    else if 0xF0 ≤ a ∧ a ≤ 0xF4 then
      match t with
      | b :: c :: d :: t' =>
        if isSecond a b && isTail c && isTail d then
          some (Char.ofNat (((a.toNat % 8 * 64 + tailBits b) * 64 + tailBits c) * 64 + tailBits d)) :: decodeRunes t'
        else none :: decodeRunes (b :: c :: d :: t')
      | t => none :: decodeRunes t
    else none :: decodeRunes t

/-- Bytes that are there start some character, or none. -/
theorem decodeRunes_ne_nil {bs : Bytes} (h : bs ≠ []) : decodeRunes bs ≠ [] := by
  fun_cases decodeRunes bs with
  | case1 => exact absurd rfl h
  | _ => exact List.cons_ne_nil _ _

/-- A byte string is UTF-8: every byte belongs to a character. -/
def validUtf8 (bs : Bytes) : Bool := (decodeRunes bs).all Option.isSome

/-- A byte that continues a character is not zero. -/
theorem isTail_ne_zero {b : UInt8} (h : isTail b = true) : b ≠ 0 := by
  rintro rfl
  exact absurd h (by decide)

theorem isSecond_ne_zero {a b : UInt8} (h : isSecond a b = true) : b ≠ 0 := by
  rintro rfl
  unfold isSecond secondLow at h
  split_ifs at h <;> simp at h

/-- A number that is a character's is the number of that character. -/
theorem toNat_ofNat {n : Nat} (hv : n.isValidChar) : (Char.ofNat n).val.toNat = n := by
  unfold Char.ofNat
  rw [dif_pos hv]
  rfl

/-- The character of a number past zero that is one is not the null character. -/
theorem ofNat_ne_null {n : Nat} (hpos : 0 < n) (hv : n.isValidChar) : Char.ofNat n ≠ '\x00' := by
  intro h
  have hn : (Char.ofNat n).toNat = n := toNat_ofNat hv
  rw [h] at hn
  have : (0 : Nat) = n := hn
  omega

/-- A character of two bytes is not null. -/
theorem twoBytes_ne_null {a b : UInt8} (ha : 0xC2 ≤ a ∧ a ≤ 0xDF) :
    Char.ofNat (a.toNat % 32 * 64 + tailBits b) ≠ '\x00' := by
  simp only [UInt8.le_iff_toNat_le, UInt8.reduceToNat] at ha
  have hb : tailBits b < 64 := Nat.mod_lt _ (by omega)
  refine ofNat_ne_null (by omega) (Or.inl ?_)
  omega

/-- The bounds of the second byte of a character of three or four bytes, the narrower ones after the first bytes that have
them included. -/
theorem isSecond_bounds {a b : UInt8} (h : isSecond a b = true) :
    (0x80 ≤ b.toNat ∧ b.toNat ≤ 0xBF) ∧ (a.toNat = 0xE0 → 0xA0 ≤ b.toNat) ∧ (a.toNat = 0xED → b.toNat ≤ 0x9F) ∧
      (a.toNat = 0xF0 → 0x90 ≤ b.toNat) ∧ (a.toNat = 0xF4 → b.toNat ≤ 0x8F) := by
  have heq : ∀ k : UInt8, a = k ↔ a.toNat = k.toNat := fun k => UInt8.toNat_inj.symm
  unfold isSecond at h
  rw [Bool.and_eq_true, decide_eq_true_iff, decide_eq_true_iff] at h
  unfold secondLow secondHigh at h
  simp only [heq, UInt8.reduceToNat] at h
  obtain ⟨hlo, hhi⟩ := h
  constructor
  · constructor
    · split_ifs at hlo <;> simp only [UInt8.le_iff_toNat_le, UInt8.reduceToNat] at hlo <;> omega
    · split_ifs at hhi <;> simp only [UInt8.le_iff_toNat_le, UInt8.reduceToNat] at hhi <;> omega
  · refine ⟨fun h => ?_, fun h => ?_, fun h => ?_, fun h => ?_⟩
    · simpa [h, UInt8.le_iff_toNat_le] using hlo
    · simpa [h, UInt8.le_iff_toNat_le] using hhi
    · simpa [h, UInt8.le_iff_toNat_le] using hlo
    · simpa [h, UInt8.le_iff_toNat_le] using hhi

/-- A character of three bytes is not null. -/
theorem threeBytes_ne_null {a b c : UInt8} (ha : 0xE0 ≤ a ∧ a ≤ 0xEF) (hb : isSecond a b = true) :
    Char.ofNat ((a.toNat % 16 * 64 + tailBits b) * 64 + tailBits c) ≠ '\x00' := by
  obtain ⟨hb, h0, hD, -, -⟩ := isSecond_bounds hb
  have hc : tailBits c < 64 := Nat.mod_lt _ (by omega)
  have htb : tailBits b = b.toNat - 128 ∨ tailBits b + 64 = b.toNat - 64 := by
    unfold tailBits
    omega
  simp only [UInt8.le_iff_toNat_le, UInt8.reduceToNat] at ha
  refine ofNat_ne_null (by omega) ?_
  by_cases h : a.toNat ≤ 237
  · exact Or.inl (by omega)
  · exact Or.inr ⟨by omega, by omega⟩

/-- A character of four bytes is not null. -/
theorem fourBytes_ne_null {a b c d : UInt8} (ha : 0xF0 ≤ a ∧ a ≤ 0xF4) (hb : isSecond a b = true) :
    Char.ofNat (((a.toNat % 8 * 64 + tailBits b) * 64 + tailBits c) * 64 + tailBits d) ≠ '\x00' := by
  obtain ⟨hb, -, -, h0, h4⟩ := isSecond_bounds hb
  have hc : tailBits c < 64 := Nat.mod_lt _ (by omega)
  have hd : tailBits d < 64 := Nat.mod_lt _ (by omega)
  have htb : tailBits b = b.toNat - 128 := by
    unfold tailBits
    omega
  simp only [UInt8.le_iff_toNat_le, UInt8.reduceToNat] at ha
  exact ofNat_ne_null (by omega) (Or.inr ⟨by omega, by omega⟩)

/-- A byte string has the null character exactly when it has the byte zero. -/
theorem null_mem_decodeRunes (bs : Bytes) : some '\x00' ∈ decodeRunes bs ↔ 0 ∈ bs := by
  have hbig : ∀ {a : UInt8}, ¬a < 0x80 → a ≠ 0 := by
    rintro _ h rfl
    exact h (by decide)
  fun_induction decodeRunes bs with
  | case1 => simp
  | case2 a t ha ih =>
    have hnull : (Char.ofNat a.toNat = '\x00') ↔ a = 0 := by
      constructor
      · intro h
        by_contra hne
        have hpos : 0 < a.toNat := Nat.pos_of_ne_zero fun h0 => hne (UInt8.toNat_inj.mp (by simpa using h0))
        have hlt : a.toNat < 256 := a.toNat_lt
        exact ofNat_ne_null hpos (Or.inl (by omega)) h
      · rintro rfl
        rfl
    simp only [List.mem_cons, ih, Option.some.injEq]
    rw [eq_comm, hnull, eq_comm]
  | case3 a ha h2 b t hb ih =>
    simp [ih, (hbig ha).symm, (isTail_ne_zero hb).symm, (twoBytes_ne_null (b := b) h2).symm]
  | case4 a ha h2 b t hb ih => simp [ih, (hbig ha).symm]
  | case5 a ha h2 => simp [(hbig ha).symm]
  | case6 a ha h2 h3 b c t hbc ih =>
    simp only [Bool.and_eq_true] at hbc
    simp [ih, (hbig ha).symm, (isSecond_ne_zero hbc.1).symm, (isTail_ne_zero hbc.2).symm,
      (threeBytes_ne_null (c := c) h3 hbc.1).symm]
  | case7 a ha h2 h3 b c t hbc ih => simp [ih, (hbig ha).symm]
  | case8 a ha h2 h3 t hne ih => simp [ih, (hbig ha).symm]
  | case9 a ha h2 h3 h4 b c d t hbc ih =>
    simp only [Bool.and_eq_true] at hbc
    simp [ih, (hbig ha).symm, (isSecond_ne_zero hbc.1.1).symm, (isTail_ne_zero hbc.1.2).symm,
      (isTail_ne_zero hbc.2).symm, (fourBytes_ne_null (c := c) (d := d) h4 hbc.1.1).symm]
  | case10 a ha h2 h3 h4 b c d t hbc ih => simp [ih, (hbig ha).symm]
  | case11 a ha h2 h3 h4 t hne ih => simp [ih, (hbig ha).symm]
  | case12 a t ha h2 h3 h4 ih => simp [ih, (hbig ha).symm]

/-! ## Writing the characters of a valid string again -/

/-- The bits of a byte that continues a character are what it has over the least such byte. -/
theorem tailBits_eq {b : UInt8} (h : isTail b = true) : 128 ≤ b.toNat ∧ b.toNat < 192 ∧ tailBits b = b.toNat - 128 := by
  simp only [isTail, Bool.and_eq_true, decide_eq_true_iff, UInt8.le_iff_toNat_le, UInt8.reduceToNat] at h
  unfold tailBits
  omega

theorem utf8EncodeChar_one {a : UInt8} (h : a < 0x80) : String.utf8EncodeChar (Char.ofNat a.toNat) = [a] := by
  simp only [UInt8.lt_iff_toNat_lt, UInt8.reduceToNat] at h
  rw [String.utf8EncodeChar, toNat_ofNat (Or.inl (by omega)), if_pos (by omega), UInt8.ofNat_toNat]

theorem utf8EncodeChar_two {a b : UInt8} (ha : 0xC2 ≤ a ∧ a ≤ 0xDF) (hb : isTail b = true) :
    String.utf8EncodeChar (Char.ofNat (a.toNat % 32 * 64 + tailBits b)) = [a, b] := by
  obtain ⟨hlo, hhi, ht⟩ := tailBits_eq hb
  simp only [UInt8.le_iff_toNat_le, UInt8.reduceToNat] at ha
  rw [String.utf8EncodeChar, toNat_ofNat (Or.inl (by omega)), if_neg (by omega), if_pos (by omega), ht]
  have h1 : (a.toNat % 32 * 64 + (b.toNat - 128)) / 64 % 0x20 + 0xc0 = a.toNat := by omega
  have h2 : (a.toNat % 32 * 64 + (b.toNat - 128)) % 0x40 + 0x80 = b.toNat := by omega
  rw [h1, h2, UInt8.ofNat_toNat, UInt8.ofNat_toNat]

theorem utf8EncodeChar_three {a b c : UInt8} (ha : 0xE0 ≤ a ∧ a ≤ 0xEF) (hb : isSecond a b = true) (hc : isTail c = true) :
    String.utf8EncodeChar (Char.ofNat ((a.toNat % 16 * 64 + tailBits b) * 64 + tailBits c)) = [a, b, c] := by
  obtain ⟨hb, h0, hD, -, -⟩ := isSecond_bounds hb
  obtain ⟨hlo, hhi, ht⟩ := tailBits_eq hc
  have htb : tailBits b = b.toNat - 128 := by
    unfold tailBits
    omega
  simp only [UInt8.le_iff_toNat_le, UInt8.reduceToNat] at ha
  have hv : ((a.toNat % 16 * 64 + (b.toNat - 128)) * 64 + (c.toNat - 128)).isValidChar := by
    by_cases h : a.toNat ≤ 237
    · exact Or.inl (by omega)
    · exact Or.inr ⟨by omega, by omega⟩
  rw [htb, ht, String.utf8EncodeChar, toNat_ofNat hv, if_neg (by omega), if_neg (by omega), if_pos (by omega)]
  have h1 : ((a.toNat % 16 * 64 + (b.toNat - 128)) * 64 + (c.toNat - 128)) / 4096 % 0x10 + 0xe0 = a.toNat := by omega
  have h2 : ((a.toNat % 16 * 64 + (b.toNat - 128)) * 64 + (c.toNat - 128)) / 64 % 0x40 + 0x80 = b.toNat := by omega
  have h3 : ((a.toNat % 16 * 64 + (b.toNat - 128)) * 64 + (c.toNat - 128)) % 0x40 + 0x80 = c.toNat := by omega
  rw [h1, h2, h3, UInt8.ofNat_toNat, UInt8.ofNat_toNat, UInt8.ofNat_toNat]

theorem utf8EncodeChar_four {a b c d : UInt8} (ha : 0xF0 ≤ a ∧ a ≤ 0xF4) (hb : isSecond a b = true) (hc : isTail c = true)
    (hd : isTail d = true) :
    String.utf8EncodeChar (Char.ofNat (((a.toNat % 8 * 64 + tailBits b) * 64 + tailBits c) * 64 + tailBits d)) =
      [a, b, c, d] := by
  obtain ⟨hb, -, -, h0, h4⟩ := isSecond_bounds hb
  obtain ⟨hclo, hchi, htc⟩ := tailBits_eq hc
  obtain ⟨hdlo, hdhi, htd⟩ := tailBits_eq hd
  have htb : tailBits b = b.toNat - 128 := by
    unfold tailBits
    omega
  simp only [UInt8.le_iff_toNat_le, UInt8.reduceToNat] at ha
  generalize hv : ((a.toNat % 8 * 64 + (b.toNat - 128)) * 64 + (c.toNat - 128)) * 64 + (d.toNat - 128) = v
  rw [htb, htc, htd, hv, String.utf8EncodeChar, toNat_ofNat (Or.inr ⟨by omega, by omega⟩), if_neg (by omega),
    if_neg (by omega), if_neg (by omega)]
  have h1 : v / 262144 % 0x08 + 0xf0 = a.toNat := by omega
  have h2 : v / 4096 % 0x40 + 0x80 = b.toNat := by omega
  have h3 : v / 64 % 0x40 + 0x80 = c.toNat := by omega
  have h4 : v % 0x40 + 0x80 = d.toNat := by omega
  rw [h1, h2, h3, h4, UInt8.ofNat_toNat, UInt8.ofNat_toNat, UInt8.ofNat_toNat, UInt8.ofNat_toNat]

/-- The characters of a valid string, written as UTF-8 again, are its bytes. -/
theorem utf8EncodeChar_decodeRunes (r : Char) (bs : Bytes) (h : validUtf8 bs = true) :
    ((decodeRunes bs).map (·.getD r)).flatMap String.utf8EncodeChar = bs := by
  unfold validUtf8 at h
  fun_induction decodeRunes bs with
  | case1 => rfl
  | case2 a t ha ih =>
    rw [List.map_cons, List.flatMap_cons, ih (by simpa using h), Option.getD_some, utf8EncodeChar_one ha]
    rfl
  | case3 a ha h2 b t hb ih =>
    rw [List.map_cons, List.flatMap_cons, ih (by simpa using h), Option.getD_some, utf8EncodeChar_two h2 hb]
    rfl
  | case6 a ha h2 h3 b c t hbc ih =>
    simp only [Bool.and_eq_true] at hbc
    rw [List.map_cons, List.flatMap_cons, ih (by simpa using h), Option.getD_some, utf8EncodeChar_three h3 hbc.1 hbc.2]
    rfl
  | case9 a ha h2 h3 h4 b c d t hbc ih =>
    simp only [Bool.and_eq_true] at hbc
    rw [List.map_cons, List.flatMap_cons, ih (by simpa using h), Option.getD_some,
      utf8EncodeChar_four h4 hbc.1.1 hbc.1.2 hbc.2]
    rfl
  | _ => simp at h

/-! ## Reading the bytes of a text -/

/-- The sixty-four bytes from 128 on continue a character. -/
theorem isTail_ofNat {n : Nat} (h : n < 64) : isTail (UInt8.ofNat (n + 128)) = true ∧ tailBits (UInt8.ofNat (n + 128)) = n := by
  have hn : (UInt8.ofNat (n + 128)).toNat = n + 128 := UInt8.toNat_ofNat_of_lt' (show n + 128 < 256 by omega)
  constructor
  · simp only [isTail, Bool.and_eq_true, decide_eq_true_iff, UInt8.le_iff_toNat_le, hn, UInt8.reduceToNat]
    omega
  · unfold tailBits
    omega

/-- The bytes of a character are read as the character. -/
theorem decodeRunes_utf8EncodeChar (c : Char) (t : Bytes) :
    decodeRunes (String.utf8EncodeChar c ++ t) = some c :: decodeRunes t := by
  have hvalid : c.toNat.isValidChar := c.valid
  have hc : Char.ofNat c.toNat = c := Char.ofNat_toNat c
  have hval : c.val.toNat = c.toNat := rfl
  rw [String.utf8EncodeChar, hval]
  generalize hv : c.toNat = v at *
  have htail := fun n : Nat => isTail_ofNat (Nat.mod_lt n (by decide : 0 < 64))
  have hbyte : ∀ {n : Nat}, n < 256 → (UInt8.ofNat n).toNat = n := UInt8.toNat_ofNat_of_lt'
  split_ifs with h1 h2 h3
  · have ha := hbyte (show v < 256 by omega)
    rw [List.singleton_append, decodeRunes.eq_def]
    simp only
    rw [if_pos (by simp only [UInt8.lt_iff_toNat_lt, ha, UInt8.reduceToNat]; omega), ha, hc]
  · have ha := hbyte (show v / 64 % 32 + 192 < 256 by omega)
    rw [List.cons_append, List.singleton_append, decodeRunes,
      if_neg (by simp only [UInt8.lt_iff_toNat_lt, ha, UInt8.reduceToNat]; omega),
      if_pos (by simp only [UInt8.le_iff_toNat_le, ha, UInt8.reduceToNat]; omega)]
    simp only [(htail v).1, if_true, (htail v).2, ha]
    rw [show (v / 64 % 32 + 192) % 32 * 64 + v % 64 = v by omega, hc]
  · have ha := hbyte (show v / 4096 % 16 + 224 < 256 by omega)
    have hb := hbyte (show v / 64 % 64 + 128 < 256 by omega)
    have hsecond : isSecond (UInt8.ofNat (v / 4096 % 16 + 224)) (UInt8.ofNat (v / 64 % 64 + 128)) = true := by
      have heq : ∀ k : UInt8, UInt8.ofNat (v / 4096 % 16 + 224) = k ↔ v / 4096 % 16 + 224 = k.toNat := fun k => by
        rw [← UInt8.toNat_inj, ha]
      simp only [isSecond, secondLow, secondHigh, heq, Bool.and_eq_true, decide_eq_true_iff, UInt8.le_iff_toNat_le, hb,
        UInt8.reduceToNat]
      rcases hvalid with hlow | ⟨hlow, hhigh⟩ <;> split_ifs <;> simp only [UInt8.reduceToNat] <;> omega
    rw [List.cons_append, List.cons_append, List.singleton_append, decodeRunes,
      if_neg (by simp only [UInt8.lt_iff_toNat_lt, ha, UInt8.reduceToNat]; omega),
      if_neg (by simp only [UInt8.le_iff_toNat_le, ha, UInt8.reduceToNat]; omega),
      if_pos (by simp only [UInt8.le_iff_toNat_le, ha, UInt8.reduceToNat]; omega)]
    simp only [hsecond, (htail v).1, Bool.and_self, if_true, (htail (v / 64)).2, (htail v).2, ha]
    rw [show ((v / 4096 % 16 + 224) % 16 * 64 + v / 64 % 64) * 64 + v % 64 = v by omega, hc]
  · have hlt : v < 0x110000 := by
      rcases hvalid with h | ⟨-, h⟩ <;> omega
    have ha := hbyte (show v / 262144 % 8 + 240 < 256 by omega)
    have hb := hbyte (show v / 4096 % 64 + 128 < 256 by omega)
    have hsecond : isSecond (UInt8.ofNat (v / 262144 % 8 + 240)) (UInt8.ofNat (v / 4096 % 64 + 128)) = true := by
      have heq : ∀ k : UInt8, UInt8.ofNat (v / 262144 % 8 + 240) = k ↔ v / 262144 % 8 + 240 = k.toNat := fun k => by
        rw [← UInt8.toNat_inj, ha]
      simp only [isSecond, secondLow, secondHigh, heq, Bool.and_eq_true, decide_eq_true_iff, UInt8.le_iff_toNat_le, hb,
        UInt8.reduceToNat]
      split_ifs <;> simp only [UInt8.reduceToNat] <;> omega
    rw [List.cons_append, List.cons_append, List.cons_append, List.singleton_append, decodeRunes,
      if_neg (by simp only [UInt8.lt_iff_toNat_lt, ha, UInt8.reduceToNat]; omega),
      if_neg (by simp only [UInt8.le_iff_toNat_le, ha, UInt8.reduceToNat]; omega),
      if_neg (by simp only [UInt8.le_iff_toNat_le, ha, UInt8.reduceToNat]; omega),
      if_pos (by simp only [UInt8.le_iff_toNat_le, ha, UInt8.reduceToNat]; omega)]
    simp only [hsecond, (htail v).1, (htail (v / 64)).1, Bool.and_self, if_true, (htail (v / 64)).2, (htail v).2, (htail (v / 4096)).2,
      ha]
    rw [show (((v / 262144 % 8 + 240) % 8 * 64 + v / 4096 % 64) * 64 + v / 64 % 64) * 64 + v % 64 = v by omega, hc]

/-- The bytes of a text are read as the text. -/
theorem decodeRunes_encoded (t : List Char) : decodeRunes (t.flatMap String.utf8EncodeChar) = t.map some := by
  induction t with
  | nil => rfl
  | cons c t ih => rw [List.flatMap_cons, decodeRunes_utf8EncodeChar, ih, List.map_cons]

end Soroscan

import Soroscan.Lib.Fallible
import Soroscan.Lib.Text
import Soroscan.Lib.Utf8

/-!
# Base 32 without padding

Five bytes are eight digits of five bits, the first bits first; one to four bytes at the end are two, four, five or seven
digits, the bits that are missing zero. The reader drops line breaks, as the readers of this encoding do, and makes bytes only
of the digit counts the writer can leave at the end: one, three or six digits that are left over make none.
-/

namespace Soroscan

namespace Base32

/-- The digits, in the order of their values. -/
def alphabet : Text :=
  ['A', 'B', 'C', 'D', 'E', 'F', 'G', 'H', 'I', 'J', 'K', 'L', 'M', 'N', 'O', 'P', 'Q', 'R', 'S', 'T', 'U', 'V', 'W', 'X',
    'Y', 'Z', '2', '3', '4', '5', '6', '7']

/-- The digit of a value below 32. -/
def digit (n : Nat) : Char := alphabet.getD n 'A'

/-- The value of a digit. -/
def value (c : Char) : Option Nat :=
  if 'A' ≤ c ∧ c ≤ 'Z' then some (c.toNat - 65) else if '2' ≤ c ∧ c ≤ '7' then some (c.toNat - 24) else none

/-- The values of the eight digits of five bytes. -/
def split (a b c d e : UInt8) : List Nat :=
  [a.toNat / 8, a.toNat % 8 * 4 + b.toNat / 64, b.toNat / 2 % 32, b.toNat % 2 * 16 + c.toNat / 16,
    c.toNat % 16 * 2 + d.toNat / 128, d.toNat / 4 % 32, d.toNat % 4 * 8 + e.toNat / 32, e.toNat % 32]

/-- The digit values of a byte string. -/
def values : Bytes → List Nat
  | a :: b :: c :: d :: e :: t => split a b c d e ++ values t
  | [a, b, c, d] => (split a b c d 0).take 7
  | [a, b, c] => (split a b c 0 0).take 5
  | [a, b] => (split a b 0 0 0).take 4
  | [a] => (split a 0 0 0 0).take 2
  | [] => []

/-- The text of a byte string. -/
def encode (bs : Bytes) : Text := (values bs).map digit

/-- The bytes of eight digit values. -/
def join (p q r s t u v w : Nat) : Bytes :=
  [UInt8.ofNat (p * 8 + q / 4), UInt8.ofNat (q * 64 + r * 2 + s / 16), UInt8.ofNat (s * 16 + t / 2),
    UInt8.ofNat (t * 128 + u * 4 + v / 8), UInt8.ofNat (v * 32 + w)]

/-- The bytes of digit values. -/
def bytesOf : List Nat → Bytes
  | p :: q :: r :: s :: t :: u :: v :: w :: rest => join p q r s t u v w ++ bytesOf rest
  | [p, q, r, s, t, u, v] => (join p q r s t u v 0).take 4
  | [p, q, r, s, t] => (join p q r s t 0 0 0).take 3
  | [p, q, r, s] => (join p q r s 0 0 0 0).take 2
  | [p, q] => (join p q 0 0 0 0 0 0).take 1
  | _ => []

/-- The byte string a text names, if every character but the line breaks is a digit. -/
def decode (t : Text) : Option Bytes :=
  ((t.filter fun c => c ≠ '\r' ∧ c ≠ '\n').mapM value).map bytesOf

/-! ## Reading back what was written -/

theorem value_digit {n : Nat} (h : n < 32) : value (digit n) = some n := by
  interval_cases n <;> decide

theorem digit_ne_break {n : Nat} (h : n < 32) : digit n ≠ '\r' ∧ digit n ≠ '\n' := by
  interval_cases n <;> decide

/-- The digit values of five bytes are below 32. -/
theorem split_lt (a b c d e : UInt8) : ∀ n ∈ split a b c d e, n < 32 := by
  have ha := a.toNat_lt
  have hb := b.toNat_lt
  have hc := c.toNat_lt
  have hd := d.toNat_lt
  have he := e.toNat_lt
  intro n hn
  simp only [split, List.mem_cons, List.not_mem_nil, or_false] at hn
  rcases hn with rfl | rfl | rfl | rfl | rfl | rfl | rfl | rfl <;> omega

theorem values_lt (bs : Bytes) : ∀ n ∈ values bs, n < 32 := by
  fun_induction values bs with
  | case1 a b c d e t ih =>
    intro n hn
    rcases List.mem_append.mp hn with hn | hn
    · exact split_lt a b c d e n hn
    · exact ih n hn
  | case2 => exact fun n hn => split_lt _ _ _ _ _ n (List.mem_of_mem_take hn)
  | case3 => exact fun n hn => split_lt _ _ _ _ _ n (List.mem_of_mem_take hn)
  | case4 => exact fun n hn => split_lt _ _ _ _ _ n (List.mem_of_mem_take hn)
  | case5 => exact fun n hn => split_lt _ _ _ _ _ n (List.mem_of_mem_take hn)
  | case6 => simp

theorem ofNat_eq_of_mod {n : Nat} {a : UInt8} (h : n % 256 = a.toNat) : UInt8.ofNat n = a := by
  apply UInt8.toNat_inj.mp
  rw [UInt8.toNat_ofNat', ← h]

/-- Five bytes are read back from their digit values. -/
theorem join_split (a b c d e : UInt8) :
    join (a.toNat / 8) (a.toNat % 8 * 4 + b.toNat / 64) (b.toNat / 2 % 32) (b.toNat % 2 * 16 + c.toNat / 16)
      (c.toNat % 16 * 2 + d.toNat / 128) (d.toNat / 4 % 32) (d.toNat % 4 * 8 + e.toNat / 32) (e.toNat % 32) =
      [a, b, c, d, e] := by
  have ha := a.toNat_lt
  have hb := b.toNat_lt
  have hc := c.toNat_lt
  have hd := d.toNat_lt
  have he := e.toNat_lt
  simp only [join, List.cons.injEq, and_true]
  exact ⟨ofNat_eq_of_mod (by omega), ofNat_eq_of_mod (by omega), ofNat_eq_of_mod (by omega),
    ofNat_eq_of_mod (by omega), ofNat_eq_of_mod (by omega)⟩

theorem bytesOf_values (bs : Bytes) : bytesOf (values bs) = bs := by
  fun_induction values bs with
  | case1 a b c d e t ih =>
    simp only [split, List.cons_append, List.nil_append, bytesOf]
    rw [join_split, ih]
    rfl
  | case2 a b c d =>
    have h := join_split a b c d 0
    simp only [join, List.cons.injEq] at h
    simp only [split, List.take_succ_cons, List.take_zero, bytesOf, join, List.cons.injEq, and_true]
    exact ⟨h.1, h.2.1, h.2.2.1, h.2.2.2.1⟩
  | case3 a b c =>
    have h := join_split a b c 0 0
    simp only [join, List.cons.injEq] at h
    simp only [split, List.take_succ_cons, List.take_zero, bytesOf, join, List.cons.injEq, and_true]
    exact ⟨h.1, h.2.1, h.2.2.1⟩
  | case4 a b =>
    have h := join_split a b 0 0 0
    simp only [join, List.cons.injEq] at h
    simp only [split, List.take_succ_cons, List.take_zero, bytesOf, join, List.cons.injEq, and_true]
    exact ⟨h.1, h.2.1⟩
  | case5 a =>
    have h := join_split a 0 0 0 0
    simp only [join, List.cons.injEq] at h
    simp only [split, List.take_succ_cons, List.take_zero, bytesOf, join, List.cons.injEq, and_true]
    exact h.1
  | case6 => rfl

theorem mapM_value_map_digit {ns : List Nat} (h : ∀ n ∈ ns, n < 32) : (ns.map digit).mapM value = some ns :=
  mapM_map_some fun n hn => value_digit (h n hn)

/-- A byte string is read back from its text. -/
@[simp] theorem decode_encode (bs : Bytes) : decode (encode bs) = some bs := by
  have hlt := values_lt bs
  have hf : (encode bs).filter (fun c => c ≠ '\r' ∧ c ≠ '\n') = encode bs := by
    rw [List.filter_eq_self]
    intro c hc
    obtain ⟨n, hn, rfl⟩ := List.mem_map.mp hc
    simpa using digit_ne_break (hlt n hn)
  rw [decode, hf, encode, mapM_value_map_digit hlt, Option.map_some, bytesOf_values]

/-- Different byte strings have different texts. -/
theorem encode_injective {as bs : Bytes} (h : encode as = encode bs) : as = bs := by
  have := decode_encode as
  rw [h, decode_encode] at this
  exact (Option.some.inj this).symm

/-! ## Texts of full groups -/

theorem exists_value {c : Char} (h : c ∈ alphabet) : ∃ n < 32, digit n = c := by
  obtain ⟨n, hn, rfl⟩ := List.mem_iff_getElem.mp h
  exact ⟨n, hn, by rw [digit, List.getD_eq_getElem?_getD, List.getElem?_eq_getElem hn, Option.getD_some]⟩

/-- A text of digits is made of digit values. -/
theorem exists_values {t : Text} (h : ∀ c ∈ t, c ∈ alphabet) : ∃ ns : List Nat, t = ns.map digit ∧ ∀ n ∈ ns, n < 32 := by
  induction t with
  | nil => exact ⟨[], rfl, fun _ hn => absurd hn List.not_mem_nil⟩
  | cons c t ih =>
    obtain ⟨hc, ht⟩ := List.forall_mem_cons.mp h
    obtain ⟨ns, rfl, hns⟩ := ih ht
    obtain ⟨n, hn, rfl⟩ := exists_value hc
    exact ⟨n :: ns, rfl, List.forall_mem_cons.mpr ⟨hn, hns⟩⟩

/-- Digit values are read as their bytes. -/
theorem decode_map_digit {ns : List Nat} (h : ∀ n ∈ ns, n < 32) : decode (ns.map digit) = some (bytesOf ns) := by
  have hf : (ns.map digit).filter (fun c => c ≠ '\r' ∧ c ≠ '\n') = ns.map digit := by
    rw [List.filter_eq_self]
    intro c hc
    obtain ⟨n, hn, rfl⟩ := List.mem_map.mp hc
    simpa using digit_ne_break (h n hn)
  rw [decode, hf, mapM_value_map_digit h, Option.map_some]

/-- The values of the digits that five bytes were made from. -/
theorem split_join {p q r s t u v w : Nat} (hp : p < 32) (hq : q < 32) (hr : r < 32) (hs : s < 32) (ht : t < 32) (hu : u < 32)
    (hv : v < 32) (hw : w < 32) : values (join p q r s t u v w) = [p, q, r, s, t, u, v, w] := by
  rw [join, values, values, List.append_nil, split]
  simp only [UInt8.toNat_ofNat', List.cons.injEq, and_true]
  omega

/-- A list of a positive multiple of eight values has a first group. -/
theorem exists_group {ns : List Nat} {m : Nat} (h : ns.length = 8 * (m + 1)) :
    ∃ p q r s t u v w rest, ns = p :: q :: r :: s :: t :: u :: v :: w :: rest ∧ rest.length = 8 * m := by
  match ns, h with
  | p :: q :: r :: s :: t :: u :: v :: w :: rest, h =>
    exact ⟨p, q, r, s, t, u, v, w, rest, rfl, by simp only [List.length_cons] at h; omega⟩

theorem length_bytesOf {ns : List Nat} {m : Nat} (h : ns.length = 8 * m) : (bytesOf ns).length = 5 * m := by
  induction m generalizing ns with
  | zero =>
    rw [List.length_eq_zero_iff.mp h]
    rfl
  | succ m ih =>
    obtain ⟨p, q, r, s, t, u, v, w, rest, rfl, hrest⟩ := exists_group h
    rw [bytesOf, List.length_append, ih hrest, join]
    simp only [List.length_cons, List.length_nil]
    omega

/-- Full groups of digit values are read back from their bytes. -/
theorem values_bytesOf {ns : List Nat} {m : Nat} (h : ns.length = 8 * m) (hlt : ∀ n ∈ ns, n < 32) : values (bytesOf ns) = ns := by
  induction m generalizing ns with
  | zero =>
    rw [List.length_eq_zero_iff.mp h]
    rfl
  | succ m ih =>
    obtain ⟨p, q, r, s, t, u, v, w, rest, rfl, hrest⟩ := exists_group h
    simp only [List.mem_cons, forall_eq_or_imp] at hlt
    obtain ⟨hp, hq, hr, hs, ht, hu, hv, hw, hlt⟩ := hlt
    have hgroup := split_join hp hq hr hs ht hu hv hw
    rw [join, values, values, List.append_nil] at hgroup
    rw [bytesOf, join, List.cons_append, List.cons_append, List.cons_append, List.cons_append, List.cons_append, List.nil_append,
      values, ih hrest hlt, hgroup]
    rfl

/-- Groups of five bytes have eight digits each. -/
theorem length_encode {bs : Bytes} {m : Nat} (h : bs.length = 5 * m) : (encode bs).length = 8 * m := by
  rw [encode, List.length_map]
  induction m generalizing bs with
  | zero =>
    rw [List.length_eq_zero_iff.mp h]
    rfl
  | succ m ih =>
    match bs, h with
    | a :: b :: c :: d :: e :: rest, h =>
      have hrest : rest.length = 5 * m := by
        simp only [List.length_cons] at h
        omega
      rw [values, List.length_append, ih hrest, split]
      simp only [List.length_cons, List.length_nil]
      omega

theorem mem_alphabet_of_mem_encode {bs : Bytes} {c : Char} (h : c ∈ encode bs) : c ∈ alphabet := by
  obtain ⟨n, hn, rfl⟩ := List.mem_map.mp h
  have hlt : n < alphabet.length := values_lt bs n hn
  rw [digit, List.getD_eq_getElem?_getD, List.getElem?_eq_getElem hlt, Option.getD_some]
  exact List.getElem_mem hlt

theorem bytesOf_append {ns : List Nat} {m : Nat} (h : ns.length = 8 * m) (rest : List Nat) :
    bytesOf (ns ++ rest) = bytesOf ns ++ bytesOf rest := by
  induction m generalizing ns with
  | zero =>
    rw [List.length_eq_zero_iff.mp h]
    rfl
  | succ m ih =>
    obtain ⟨p, q, r, s, t, u, v, w, tail, rfl, htail⟩ := exists_group h
    simp only [List.cons_append]
    rw [bytesOf, bytesOf, ih htail, List.append_assoc]

/-- The bytes that share no bit with a digit do not depend on it. -/
theorem getElem?_bytesOf_set {ns : List Nat} {m : Nat} (h : ns.length = 8 * m) (n : Nat) {i k : Nat}
    (hbits : ¬(8 * k < 5 * i + 5 ∧ 5 * i < 8 * k + 8)) : (bytesOf (ns.set i n))[k]? = (bytesOf ns)[k]? := by
  induction m generalizing ns i k with
  | zero =>
    rw [List.length_eq_zero_iff.mp h]
    rfl
  | succ m ih =>
    obtain ⟨p, q, r, s, t, u, v, w, rest, rfl, hrest⟩ := exists_group h
    rcases Nat.lt_or_ge i 8 with hi | hi
    · rcases Nat.lt_or_ge k 5 with hk | hk
      · interval_cases i <;> interval_cases k <;> first | rfl | exact absurd ⟨by decide, by decide⟩ hbits
      · obtain ⟨k, rfl⟩ := Nat.exists_eq_add_of_le' hk
        interval_cases i <;> rfl
    · obtain ⟨i, rfl⟩ := Nat.exists_eq_add_of_le' hi
      simp only [List.set_cons_succ]
      rw [bytesOf, bytesOf, join]
      rcases Nat.lt_or_ge k 5 with hk | hk
      · interval_cases k <;> rfl
      · obtain ⟨k, rfl⟩ := Nat.exists_eq_add_of_le' hk
        exact ih hrest (by omega)

end Base32

end Soroscan

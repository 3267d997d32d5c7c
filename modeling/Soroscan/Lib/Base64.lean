import Soroscan.Lib.Base32

/-!
# Base 64

Three bytes are four digits of six bits, the first bits first; one or two bytes at the end are two or three digits and the
padding that fills the four. `encode` writes the padding; `atob` is the forgiving reader of the web platform, which skips
white space, does not need the padding, and drops the bits of a last digit that make no byte.
-/

namespace Soroscan

namespace Base64

/-- The digits, in the order of their values. -/
def alphabet : Text :=
  ['A', 'B', 'C', 'D', 'E', 'F', 'G', 'H', 'I', 'J', 'K', 'L', 'M', 'N', 'O', 'P', 'Q', 'R', 'S', 'T', 'U', 'V', 'W', 'X',
    'Y', 'Z', 'a', 'b', 'c', 'd', 'e', 'f', 'g', 'h', 'i', 'j', 'k', 'l', 'm', 'n', 'o', 'p', 'q', 'r', 's', 't', 'u', 'v',
    'w', 'x', 'y', 'z', '0', '1', '2', '3', '4', '5', '6', '7', '8', '9', '+', '/']

/-- The digit of a value below 64. -/
def digit (n : Nat) : Char := alphabet.getD n 'A'

/-- The value of a digit. -/
def value (c : Char) : Option Nat :=
  if 'A' ≤ c ∧ c ≤ 'Z' then some (c.toNat - 65)
  else if 'a' ≤ c ∧ c ≤ 'z' then some (c.toNat - 71)
  else if '0' ≤ c ∧ c ≤ '9' then some (c.toNat + 4)
  else if c = '+' then some 62
  else if c = '/' then some 63
  else none

/-- The values of the four digits of three bytes. -/
def split (a b c : UInt8) : List Nat :=
  [a.toNat / 4, a.toNat % 4 * 16 + b.toNat / 16, b.toNat % 16 * 4 + c.toNat / 64, c.toNat % 64]

/-- The text of a byte string. -/
def encode : Bytes → Text
  | a :: b :: c :: t => (split a b c).map digit ++ encode t
  | [a, b] => ((split a b 0).take 3).map digit ++ ['=']
  | [a] => ((split a 0 0).take 2).map digit ++ ['=', '=']
  | [] => []

/-- The bytes of four digit values. -/
def join (p q r s : Nat) : Bytes :=
  [UInt8.ofNat (p * 4 + q / 16), UInt8.ofNat (q * 16 + r / 4), UInt8.ofNat (r * 64 + s)]

/-- The bytes of digit values. -/
def bytesOf : List Nat → Bytes
  | p :: q :: r :: s :: rest => join p q r s ++ bytesOf rest
  | [p, q, r] => (join p q r 0).take 2
  | [p, q] => (join p q 0 0).take 1
  | _ => []

/-- A character that the reader skips. -/
def isSpace (c : Char) : Bool := c = '\t' || c = '\n' || c = Char.ofNat 12 || c = '\r' || c = ' '

/-- A text without the one or two padding characters at its end. -/
def dropPadding (t : Text) : Text :=
  match t.reverse with
  | '=' :: '=' :: rest => rest.reverse
  | '=' :: rest => rest.reverse
  | _ => t

/-- The bytes of a text that the white space has been taken out of. -/
def decode (t : Text) : Option Bytes :=
  let digits := if t.length % 4 = 0 then dropPadding t else t
  if digits.length % 4 = 1 then none else (digits.mapM value).map bytesOf

/-- `atob`: the bytes that a text names. -/
def atob (t : Text) : Option Bytes := decode (t.filter fun c => !isSpace c)

/-! ## Reading back what was written -/

theorem value_digit {n : Nat} (h : n < 64) : value (digit n) = some n := by
  interval_cases n <;> decide

/-- The values of digits are read back, and no digit is a space or the padding. -/
theorem isSpace_digit {n : Nat} (h : n < 64) : isSpace (digit n) = false ∧ digit n ≠ '=' := by
  interval_cases n <;> decide

/-- The digit values of three bytes are below 64. -/
theorem split_lt (a b c : UInt8) : ∀ n ∈ split a b c, n < 64 := by
  have ha := a.toNat_lt
  have hb := b.toNat_lt
  have hc := c.toNat_lt
  intro n hn
  simp only [split, List.mem_cons, List.not_mem_nil, or_false] at hn
  rcases hn with rfl | rfl | rfl | rfl <;> omega

/-- Three bytes are read back from their digit values. -/
theorem join_split (a b c : UInt8) :
    join (a.toNat / 4) (a.toNat % 4 * 16 + b.toNat / 16) (b.toNat % 16 * 4 + c.toNat / 64) (c.toNat % 64) = [a, b, c] := by
  have ha := a.toNat_lt
  have hb := b.toNat_lt
  have hc := c.toNat_lt
  simp only [join, List.cons.injEq, and_true]
  exact ⟨Base32.ofNat_eq_of_mod (by omega), Base32.ofNat_eq_of_mod (by omega), Base32.ofNat_eq_of_mod (by omega)⟩

/-- The digit values of a byte string, the padding left out. -/
def values : Bytes → List Nat
  | a :: b :: c :: t => split a b c ++ values t
  | [a, b] => (split a b 0).take 3
  | [a] => (split a 0 0).take 2
  | [] => []

/-- How many padding characters a byte string ends with. -/
def padding (bs : Bytes) : Nat := (3 - bs.length % 3) % 3

theorem values_lt (bs : Bytes) : ∀ n ∈ values bs, n < 64 := by
  fun_induction values bs with
  | case1 a b c t ih =>
    intro n hn
    rcases List.mem_append.mp hn with hn | hn
    · exact split_lt a b c n hn
    · exact ih n hn
  | case2 => exact fun n hn => split_lt _ _ _ n (List.mem_of_mem_take hn)
  | case3 => exact fun n hn => split_lt _ _ _ n (List.mem_of_mem_take hn)
  | case4 => exact fun n hn => absurd hn List.not_mem_nil

theorem bytesOf_values (bs : Bytes) : bytesOf (values bs) = bs := by
  fun_induction values bs with
  | case1 a b c t ih =>
    simp only [split, List.cons_append, List.nil_append, bytesOf]
    rw [join_split, ih]
    rfl
  | case2 a b =>
    have h := join_split a b 0
    simp only [join, List.cons.injEq] at h
    simp only [split, List.take_succ_cons, List.take_zero, bytesOf, join, List.cons.injEq, and_true]
    exact ⟨h.1, h.2.1⟩
  | case3 a =>
    have h := join_split a 0 0
    simp only [join, List.cons.injEq] at h
    simp only [split, List.take_succ_cons, List.take_zero, bytesOf, join, List.cons.injEq, and_true]
    exact h.1
  | case4 => rfl

/-- A text is the digits of its bytes and the padding. -/
theorem encode_eq (bs : Bytes) : encode bs = (values bs).map digit ++ List.replicate (padding bs) '=' := by
  fun_induction values bs with
  | case1 a b c t ih =>
    have hpad : padding (a :: b :: c :: t) = padding t := by
      simp only [padding, List.length_cons]
      omega
    rw [encode, ih, hpad, List.map_append, List.append_assoc]
  | case2 => rfl
  | case3 => rfl
  | case4 => rfl

/-- The digits and the padding fill groups of four. -/
theorem values_length (bs : Bytes) :
    ((values bs).length + padding bs) % 4 = 0 ∧ (values bs).length % 4 ≠ 1 ∧ padding bs ≤ 2 := by
  fun_induction values bs with
  | case1 a b c t ih =>
    simp only [padding, List.length_append, List.length_cons, split, List.length_nil] at ih ⊢
    omega
  | case2 => simp [split, padding]
  | case3 => simp [split, padding]
  | case4 => simp [padding]

theorem dropPadding_append {t : Text} (ht : '=' ∉ t) {n : Nat} (hn : n ≤ 2) :
    dropPadding (t ++ List.replicate n '=') = t := by
  have hlast : ∀ rest, t.reverse ≠ '=' :: rest := by
    intro rest h
    exact ht (List.mem_reverse.mp (h ▸ List.mem_cons_self))
  unfold dropPadding
  rw [List.reverse_append, List.reverse_replicate]
  interval_cases n
  · rw [List.replicate_zero, List.nil_append, List.append_nil]
    split
    · rename_i h
      exact absurd h (hlast _)
    · rename_i h
      exact absurd h (hlast _)
    · rfl
  · rw [List.replicate_one, List.singleton_append]
    split
    · rename_i h
      exact absurd (List.cons.inj h).2 (hlast _)
    · rename_i h
      rw [← (List.cons.inj h).2, List.reverse_reverse]
    · rename_i h
      exact absurd rfl (h _)
  · show (match '=' :: '=' :: t.reverse with
      | '=' :: '=' :: rest => rest.reverse
      | '=' :: rest => rest.reverse
      | _ => t ++ List.replicate 2 '=') = t
    exact List.reverse_reverse t

theorem mapM_value_map_digit {ns : List Nat} (h : ∀ n ∈ ns, n < 64) : (ns.map digit).mapM value = some ns :=
  mapM_map_some fun n hn => value_digit (h n hn)

/-- A byte string is read back from its text. -/
@[simp] theorem atob_encode (bs : Bytes) : atob (encode bs) = some bs := by
  have hlt := values_lt bs
  obtain ⟨hfill, hrest, hpad⟩ := values_length bs
  have hspace : (encode bs).filter (fun c => !isSpace c) = encode bs := by
    rw [List.filter_eq_self, encode_eq]
    intro c hc
    rcases List.mem_append.mp hc with hc | hc
    · obtain ⟨n, hn, rfl⟩ := List.mem_map.mp hc
      rw [(isSpace_digit (hlt n hn)).1]
      rfl
    · rw [List.eq_of_mem_replicate hc]
      rfl
  have hdigits : '=' ∉ (values bs).map digit := by
    intro h
    obtain ⟨n, hn, he⟩ := List.mem_map.mp h
    exact (isSpace_digit (hlt n hn)).2 he
  have hlength : (encode bs).length % 4 = 0 := by
    rw [encode_eq, List.length_append, List.length_map, List.length_replicate]
    exact hfill
  rw [atob, hspace, decode]
  simp only [if_pos hlength]
  rw [encode_eq, dropPadding_append hdigits hpad, List.length_map, if_neg hrest, mapM_value_map_digit hlt,
    Option.map_some, bytesOf_values]

end Base64

end Soroscan

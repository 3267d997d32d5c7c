import Soroscan.Lib.Json
import Mathlib.Data.List.TakeWhile

/-!
# Reading back what was written

`parse_marshal`: the text of a well-formed value is read back as that value. A value is well formed (`Json.Ok`) when its
number tokens are numbers and the members of its objects are in the order of their names, each name once. The reader is
shown to stop where the written value ends, whatever follows, as long as a number is not followed by more of a number
(`NumberEnd`). `parse_ok`: every value the reader accepts is well formed.
-/

namespace Soroscan

namespace Json

mutual

/-- A well-formed value: its number tokens are numbers, and the members of its objects are in the order of their names. -/
def Ok : Json → Prop
  | .num token => readNumber token = some (token, [])
  | .arr items => OkItems items
  | .obj members => (members.map (·.1)).Pairwise (· < ·) ∧ OkMembers members
  | _ => True

/-- Every item is well formed. -/
def OkItems : List Json → Prop
  | [] => True
  | v :: vs => Ok v ∧ OkItems vs

/-- The value of every member is well formed. -/
def OkMembers : List (Text × Json) → Prop
  | [] => True
  | (_, v) :: ms => Ok v ∧ OkMembers ms

end

/-! ## Strings -/

/-- The value of the digit that writes a number below sixteen is the number. -/
theorem hexDigitValue_digitChar {n : Nat} (h : n < 16) : hexDigitValue n.digitChar = some n := by
  interval_cases n <;> decide

/-- The escape of a code unit below 256 is read back. -/
theorem readUnicode_byte {c : Char} (h : c.toNat < 256) (t : Text) :
    readUnicode ('0' :: '0' :: Nat.digitChar (c.toNat / 16) :: Nat.digitChar (c.toNat % 16) :: t) = some (c, t) := by
  have hu : hexUnit '0' '0' (Nat.digitChar (c.toNat / 16)) (Nat.digitChar (c.toNat % 16)) = some c.toNat := by
    have h0 : hexDigitValue '0' = some 0 := by decide
    simp only [hexUnit, h0, hexDigitValue_digitChar (show c.toNat / 16 < 16 by omega),
      hexDigitValue_digitChar (show c.toNat % 16 < 16 by omega), Option.some.injEq]
    omega
  have hs : ¬(0xD800 ≤ c.toNat ∧ c.toNat < 0xE000) := by omega
  simp only [readUnicode, hu, if_neg hs, Char.ofNat_toNat]

/-- The escape of a line or paragraph separator is read back. -/
theorem readUnicode_separator {c : Char} (h : c.toNat = 0x2028 ∨ c.toNat = 0x2029) (t : Text) :
    readUnicode ('2' :: '0' :: '2' :: Nat.digitChar (c.toNat % 16) :: t) = some (c, t) := by
  have hu : hexUnit '2' '0' '2' (Nat.digitChar (c.toNat % 16)) = some c.toNat := by
    have h0 : hexDigitValue '0' = some 0 := by decide
    have h2 : hexDigitValue '2' = some 2 := by decide
    simp only [hexUnit, h0, h2, hexDigitValue_digitChar (show c.toNat % 16 < 16 by omega), Option.some.injEq]
    omega
  have hs : ¬(0xD800 ≤ c.toNat ∧ c.toNat < 0xE000) := by omega
  simp only [readUnicode, hu, if_neg hs, Char.ofNat_toNat]

/-- A character of a written string literal is read back as itself, a byte that is none as the replacement character. -/
theorem readRune_escapeRune (o : Option Char) (t : Text) :
    readRune (escapeRune o ++ t) = some (some (o.getD replacementChar), t) := by
  cases o with
  | none => rfl
  | some c =>
    simp only [escapeRune]
    split_ifs with h1 h2 h3 h4 h5 h6 h7 h8
    · rcases h1 with rfl | rfl <;> rfl
    · subst h2; rfl
    · subst h3; rfl
    · subst h4; rfl
    · subst h5; rfl
    · subst h6; rfl
    · have hc : c.toNat < 256 := by
        rcases h7 with h | rfl | rfl | rfl
        · omega
        all_goals decide
      simp only [List.cons_append, List.nil_append, readRune, Option.getD_some]
      rw [if_neg (by decide), if_true, readUnicode_byte hc]
      rfl
    · simp only [List.cons_append, List.nil_append, readRune, Option.getD_some]
      rw [if_neg (by decide), if_true, readUnicode_separator h8]
      rfl
    · have hq : c ≠ '"' := fun h => h1 (Or.inl h)
      have hb : c ≠ '\\' := fun h => h1 (Or.inr h)
      have hs : ¬c.toNat < 0x20 := fun h => h7 (Or.inl h)
      simp only [List.cons_append, List.nil_append, readRune, if_neg hq, if_neg hb, if_neg hs, Option.getD_some]

/-- Every character of a string literal is written with at least one character. -/
theorem escapeRune_length_pos (o : Option Char) : 0 < (escapeRune o).length := by
  unfold escapeRune
  split
  · decide
  · split_ifs <;> simp

/-- The characters of a written string literal are read back, and the text after its closing quote is left. -/
theorem readString_escapeRunes (rs : List (Option Char)) (t : Text) (n : Nat) (hn : rs.length < n) :
    readString n (rs.flatMap escapeRune ++ '"' :: t) = some (rs.map (·.getD replacementChar), t) := by
  induction rs generalizing n with
  | nil =>
    obtain ⟨m, rfl⟩ := Nat.exists_eq_add_of_lt hn
    simp [readString, readRune]
  | cons o rs ih =>
    cases n with
    | zero => omega
    | succ m =>
      have hm : rs.length < m := by simpa using hn
      rw [List.flatMap_cons, List.append_assoc, readString, readRune_escapeRune]
      simp only [ih m hm, Option.map_some, List.map_cons]

/-- A string literal is at least two characters longer than what it holds. -/
theorem flatMap_escapeRune_length (rs : List (Option Char)) : rs.length ≤ (rs.flatMap escapeRune).length := by
  induction rs with
  | nil => simp
  | cons o rs ih =>
    have := escapeRune_length_pos o
    rw [List.flatMap_cons, List.length_append, List.length_cons]
    omega

/-- A written string literal is read back with the fuel that the text after its opening quote gives. -/
theorem readString_quoteRunes (rs : List (Option Char)) (t : Text) :
    readString (rs.flatMap escapeRune ++ '"' :: t).length (rs.flatMap escapeRune ++ '"' :: t) =
      some (rs.map (·.getD replacementChar), t) := by
  apply readString_escapeRunes
  have := flatMap_escapeRune_length rs
  rw [List.length_append, List.length_cons]
  omega

theorem map_getD_some (s : Text) : (s.map some).map (·.getD replacementChar) = s := by
  simp [List.map_map, Function.comp_def]

/-! ## Numbers -/

/-- The text does not go on with a number: it is empty, or starts with a character that no number continues with. -/
def NumberEnd (t : Text) : Prop := ∀ c ∈ t.head?, c.isDigit = false ∧ c ≠ '.' ∧ c ≠ 'e' ∧ c ≠ 'E'

/-- A character that goes on with no number ends one. -/
theorem numberEnd_cons {c : Char} (hd : c.isDigit = false) (h1 : c ≠ '.') (h2 : c ≠ 'e') (h3 : c ≠ 'E') (t : Text) :
    NumberEnd (c :: t) := by
  intro c' hc'
  rw [List.head?_cons, Option.mem_some_iff] at hc'
  subst hc'
  exact ⟨hd, h1, h2, h3⟩

/-- A reader of a part of a number stops at the same place when more text follows: either it left something already, or what
follows does not go on with a number. -/
def StopsAt (read : Text → Option (Text × Text)) : Prop :=
  ∀ t u v rest, read t = some (u, v) → (v = [] → NumberEnd rest) → read (t ++ rest) = some (u, v ++ rest)

/-- Taking and dropping the front of a text stop at the same place when what follows does not go on with it. -/
theorem takeWhile_dropWhile_append (p : Char → Bool) (t rest : Text)
    (hend : t.dropWhile p = [] → ∀ c ∈ rest.head?, p c = false) :
    (t ++ rest).takeWhile p = t.takeWhile p ∧ (t ++ rest).dropWhile p = t.dropWhile p ++ rest := by
  induction t with
  | nil =>
    cases rest with
    | nil => exact ⟨rfl, rfl⟩
    | cons c rest =>
      have hc := hend rfl c rfl
      exact ⟨List.takeWhile_cons_of_neg (by simp [hc]), List.dropWhile_cons_of_neg (by simp [hc])⟩
  | cons c t ih =>
    by_cases hc : p c = true
    · rw [List.dropWhile_cons_of_pos hc] at hend
      obtain ⟨h1, h2⟩ := ih hend
      rw [List.cons_append, List.takeWhile_cons_of_pos hc, List.dropWhile_cons_of_pos hc, List.takeWhile_cons_of_pos hc,
        List.dropWhile_cons_of_pos hc, h1, h2]
      exact ⟨rfl, rfl⟩
    · rw [List.cons_append, List.takeWhile_cons_of_neg hc, List.dropWhile_cons_of_neg hc, List.takeWhile_cons_of_neg hc,
        List.dropWhile_cons_of_neg hc]
      exact ⟨rfl, rfl⟩

/-- Digits that are read are read again in front of anything that ends them. -/
theorem stopsAt_readDigits : StopsAt readDigits := by
  intro t u v rest h hend
  unfold readDigits at h ⊢
  split_ifs at h with hds
  simp only [Option.some.injEq, Prod.mk.injEq] at h
  obtain ⟨rfl, rfl⟩ := h
  obtain ⟨h1, h2⟩ := takeWhile_dropWhile_append Char.isDigit t rest
    fun hv c hc => (hend hv c hc).1
  rw [h1, h2, if_neg hds]

/-- So is a sign. -/
theorem stopsAt_readSign : ∀ t u v rest, readSign t = some (u, v) → t ≠ [] → readSign (t ++ rest) = some (u, v ++ rest) := by
  intro t u v rest h ht
  cases t with
  | nil => exact absurd rfl ht
  | cons c t =>
    by_cases hc : c = '-'
    · subst hc
      simp only [readSign, Option.some.injEq, Prod.mk.injEq] at h
      obtain ⟨rfl, rfl⟩ := h
      rfl
    · have hr : ∀ w, readSign (c :: w) = some ([], c :: w) := by
        intro w
        unfold readSign
        split
        · rename_i heq
          exact absurd (List.cons.inj heq).1 hc
        · rfl
      rw [hr, Option.some.injEq, Prod.mk.injEq] at h
      obtain ⟨rfl, rfl⟩ := h
      rw [List.cons_append, hr]

/-- An integer that does not begin with a zero is a row of digits. -/
theorem readIntPart_cons {c : Char} (hc : c ≠ '0') (t : Text) : readIntPart (c :: t) = readDigits (c :: t) := by
  unfold readIntPart
  split
  · rename_i heq
    exact absurd (List.cons.inj heq).1 hc
  · rfl

/-- So is the integer of a number. -/
theorem stopsAt_readIntPart : StopsAt readIntPart := by
  intro t u v rest h hend
  cases t with
  | nil => simp [readIntPart, readDigits] at h
  | cons c t =>
    by_cases hc : c = '0'
    · subst hc
      simp only [readIntPart, Option.some.injEq, Prod.mk.injEq] at h
      obtain ⟨rfl, rfl⟩ := h
      rfl
    · rw [readIntPart_cons hc] at h
      rw [List.cons_append, readIntPart_cons hc]
      exact stopsAt_readDigits _ _ _ rest h hend

/-- Without a point there is no fraction. -/
theorem readFraction_of_ne {t : Text} (h : ∀ c ∈ t.head?, c ≠ '.') : readFraction t = some ([], t) := by
  unfold readFraction
  split
  · exact absurd rfl (h '.' rfl)
  · rfl

/-- So is a fraction. -/
theorem stopsAt_readFraction : StopsAt readFraction := by
  intro t u v rest h hend
  cases t with
  | nil =>
    simp only [readFraction, Option.some.injEq, Prod.mk.injEq] at h
    obtain ⟨rfl, rfl⟩ := h
    exact readFraction_of_ne fun c hc => (hend rfl c hc).2.1
  | cons c t =>
    by_cases hc : c = '.'
    · subst hc
      simp only [readFraction, Option.map_eq_some_iff] at h
      obtain ⟨⟨ds, w⟩, hd, heq⟩ := h
      simp only [Prod.mk.injEq] at heq
      obtain ⟨rfl, rfl⟩ := heq
      simp only [List.cons_append, readFraction, stopsAt_readDigits t ds _ rest hd hend, Option.map_some]
    · have hne : ∀ w, readFraction (c :: w) = some ([], c :: w) := fun w =>
        readFraction_of_ne fun c' hc' => by
          rw [List.head?_cons, Option.mem_some_iff] at hc'
          exact hc' ▸ hc
      rw [hne, Option.some.injEq, Prod.mk.injEq] at h
      obtain ⟨rfl, rfl⟩ := h
      rw [List.cons_append, hne]

/-- So is the sign of an exponent. -/
theorem readExponentSign_append {t u v rest : Text} (h : readExponentSign t = some (u, v)) (ht : t ≠ []) :
    readExponentSign (t ++ rest) = some (u, v ++ rest) := by
  cases t with
  | nil => exact absurd rfl ht
  | cons c t =>
    by_cases hc : c = '+'
    · subst hc
      simp only [readExponentSign, Option.some.injEq, Prod.mk.injEq] at h
      obtain ⟨rfl, rfl⟩ := h
      rfl
    · have hr : ∀ w, readExponentSign (c :: w) = readSign (c :: w) := by
        intro w
        unfold readExponentSign
        split
        · rename_i heq
          exact absurd (List.cons.inj heq).1 hc
        · rfl
      rw [hr] at h
      rw [List.cons_append, hr]
      exact stopsAt_readSign _ _ _ rest h (List.cons_ne_nil _ _)

/-- So is an exponent. -/
theorem stopsAt_readExponent : StopsAt readExponent := by
  intro t u v rest h hend
  cases t with
  | nil =>
    simp only [readExponent, Option.some.injEq, Prod.mk.injEq] at h
    obtain ⟨rfl, rfl⟩ := h
    cases rest with
    | nil => rfl
    | cons c rest =>
      have hc := hend rfl c rfl
      simp only [List.nil_append, readExponent, hc.2.2.1, hc.2.2.2, or_self, if_false]
  | cons c t =>
    by_cases hc : c = 'e' ∨ c = 'E'
    · simp only [readExponent, if_pos hc, Option.bind_eq_some_iff, Option.map_eq_some_iff] at h
      obtain ⟨⟨sg, w⟩, hs, ⟨ds, w'⟩, hd, heq⟩ := h
      simp only [Prod.mk.injEq] at heq
      obtain ⟨rfl, rfl⟩ := heq
      have ht : t ≠ [] := by
        rintro rfl
        simp only [readExponentSign, readSign, Option.some.injEq, Prod.mk.injEq] at hs
        obtain ⟨rfl, rfl⟩ := hs
        simp [readDigits] at hd
      simp only [List.cons_append, readExponent, if_pos hc, readExponentSign_append hs ht, Option.bind_some,
        stopsAt_readDigits w ds _ rest hd hend, Option.map_some]
    · simp only [readExponent, if_neg hc, Option.some.injEq, Prod.mk.injEq] at h
      obtain ⟨rfl, rfl⟩ := h
      simp only [List.cons_append, readExponent, if_neg hc]

/-- A number token is read back from the front of a text that does not go on with a number. -/
theorem readNumber_append {token rest : Text} (h : readNumber token = some (token, [])) (hend : NumberEnd rest) :
    readNumber (token ++ rest) = some (token, rest) := by
  simp only [readNumber, Option.bind_eq_some_iff, Option.map_eq_some_iff] at h
  obtain ⟨⟨sg, t1⟩, h1, ⟨ip, t2⟩, h2, ⟨fr, t3⟩, h3, ⟨ex, t4⟩, h4, heq⟩ := h
  simp only [Prod.mk.injEq] at heq
  obtain ⟨htok, rfl⟩ := heq
  have hne : token ≠ [] := by
    rintro rfl
    simp only [readSign, Option.some.injEq, Prod.mk.injEq] at h1
    obtain ⟨rfl, rfl⟩ := h1
    simp [readIntPart, readDigits] at h2
  simp only [readNumber, stopsAt_readSign token sg t1 rest h1 hne, Option.bind_some,
    stopsAt_readIntPart t1 ip t2 rest h2 (fun _ => hend), stopsAt_readFraction t2 fr t3 rest h3 (fun _ => hend),
    stopsAt_readExponent t3 ex [] rest h4 (fun _ => hend), Option.map_some, htok, List.nil_append]

/-- A number token starts with a minus sign or a digit. -/
theorem readNumber_head {token : Text} (h : readNumber token = some (token, [])) :
    ∃ c t, token = c :: t ∧ (c = '-' ∨ c.isDigit = true) := by
  cases token with
  | nil => simp [readNumber, readSign, readIntPart, readDigits] at h
  | cons c t =>
    refine ⟨c, t, rfl, ?_⟩
    by_contra hcon
    push Not at hcon
    obtain ⟨hm, hd⟩ := hcon
    have hs : readSign (c :: t) = some ([], c :: t) := by
      unfold readSign
      split
      · rename_i heq
        exact absurd (List.cons.inj heq).1 hm
      · rfl
    have hz : c ≠ '0' := by
      rintro rfl
      exact hd (by decide)
    simp [readNumber, hs, readIntPart_cons hz, readDigits, List.takeWhile_cons_of_neg hd] at h

/-- The decimal form of a natural number is a number token. -/
theorem readIntPart_decimal (n : Nat) : readIntPart (decimal n) = some (decimal n, []) := by
  by_cases hn : n = 0
  · subst hn; rfl
  · obtain ⟨c, t, hct, hc⟩ := decimal_head_ne_zero (Nat.pos_of_ne_zero hn)
    have hall : ∀ d ∈ decimal n, Char.isDigit d = true := fun d hd => isDigit_of_mem_decimal hd
    have htake : (decimal n).takeWhile Char.isDigit = decimal n := List.takeWhile_eq_self_iff.mpr hall
    have hdrop : (decimal n).dropWhile Char.isDigit = [] := List.dropWhile_eq_nil_iff.mpr hall
    have hr : readIntPart (decimal n) = readDigits (decimal n) := by rw [hct]; exact readIntPart_cons hc t
    rw [hr, readDigits, htake, hdrop, if_neg (decimal_ne_nil n)]

/-- The decimal form of an integer is a number token. -/
theorem readNumber_intDecimal (i : Int) : readNumber (intDecimal i) = some (intDecimal i, []) := by
  cases i with
  | ofNat n =>
    have hs : readSign (decimal n) = some ([], decimal n) := by
      unfold readSign
      split
      · rename_i t ht
        exact absurd (show '-' ∈ decimal n by rw [ht]; exact List.mem_cons_self) (not_minus_mem_decimal n)
      · rfl
    simp [readNumber, intDecimal, hs, readIntPart_decimal, readFraction, readExponent]
  | negSucc n =>
    simp [readNumber, intDecimal, readSign, readIntPart_decimal, readFraction, readExponent]

/-! ## Values -/

/-- The text of a value. It starts with a character that is neither white space nor a closing bracket, and it is read back
from the front of any text, with fuel at least its length, unless a number goes on. -/
structure Stands (t : Text) (v : Json) : Prop where
  head : ∃ c u, t = c :: u ∧ ¬(c = ' ' ∨ c = '\t' ∨ c = '\r' ∨ c = '\n') ∧ c ≠ ']' ∧ c ≠ '}'
  reads : ∀ n rest, t.length ≤ n → NumberEnd rest → parseValue n (t ++ rest) = some (v, rest)

/-- The text of the items after the first: no number goes on into it, and it is read back to the end of its array. -/
structure StandsItems (t : Text) (vs : List Json) : Prop where
  numberEnd : ∀ rest, NumberEnd (t ++ rest)
  reads : ∀ n rest, t.length ≤ n → parseItems n (t ++ rest) = some (vs, rest)

/-- The text of the members after the first: no number goes on into it, and it is read back to the end of its object. -/
structure StandsMembers (t : Text) (ms : List (Text × Json)) : Prop where
  numberEnd : ∀ rest, NumberEnd (t ++ rest)
  reads : ∀ n rest, t.length ≤ n → parseMembers n (t ++ rest) = some (ms, rest)

/-- The text of a name: a string literal. -/
def StandsName (t : Text) (k : Text) : Prop := ∃ rs, t = quoteRunes rs ∧ k = rs.map (·.getD replacementChar)

/-- Nothing is skipped in front of a character that is not white space. -/
theorem skipSpace_cons {c : Char} (h : ¬(c = ' ' ∨ c = '\t' ∨ c = '\r' ∨ c = '\n')) (t : Text) :
    skipSpace (c :: t) = c :: t :=
  List.dropWhile_cons_of_neg (by simpa using h)

theorem ne_of_isDigit {c d : Char} (hc : c = '-' ∨ c.isDigit = true) (hd : ¬(d = '-' ∨ d.isDigit = true)) : c ≠ d := by
  rintro rfl
  exact hd hc

/-- The fuel for a text that is not empty is a successor. -/
theorem exists_succ_of_length_le {n : Nat} {t : Text} (hpos : 0 < t.length) (h : t.length ≤ n) :
    ∃ m, n = m + 1 := ⟨n - 1, by omega⟩

/-- The text of null stands for it. -/
theorem stands_null : Stands ['n', 'u', 'l', 'l'] .null := by
  refine ⟨⟨_, _, rfl, by decide, by decide, by decide⟩, fun n rest hn _ => ?_⟩
  obtain ⟨m, rfl⟩ := exists_succ_of_length_le (by simp) hn
  simp only [List.cons_append, List.nil_append, parseValue]
  rw [skipSpace_cons (by decide)]
  simp only

/-- The text of a truth value stands for it. -/
theorem stands_bool (b : Bool) : Stands (marshal (.bool b)) (.bool b) := by
  refine ⟨by cases b <;> exact ⟨_, _, rfl, by decide, by decide, by decide⟩, fun n rest hn _ => ?_⟩
  obtain ⟨m, rfl⟩ := exists_succ_of_length_le (by cases b <;> simp [marshal]) hn
  cases b <;>
  · simp only [marshal, List.cons_append, List.nil_append, parseValue]
    rw [skipSpace_cons (by decide)]
    simp only

/-- A token stands for the number it is. -/
theorem stands_num {token : Text} (h : readNumber token = some (token, [])) : Stands token (.num token) := by
  obtain ⟨c, t, rfl, hc⟩ := readNumber_head h
  have hs : ¬(c = ' ' ∨ c = '\t' ∨ c = '\r' ∨ c = '\n') := by
    rintro (rfl | rfl | rfl | rfl) <;> exact absurd hc (by decide)
  refine ⟨⟨c, t, rfl, hs, ne_of_isDigit hc (by decide), ne_of_isDigit hc (by decide)⟩, fun n rest hn hend => ?_⟩
  obtain ⟨m, rfl⟩ := exists_succ_of_length_le (by simp) hn
  simp only [parseValue]
  rw [List.cons_append, skipSpace_cons hs]
  split
  case h_7 => rw [← List.cons_append, readNumber_append h hend, Option.map_some]
  all_goals
    rename_i heq
    exact absurd (List.cons.inj heq).1 (ne_of_isDigit hc (by decide))

theorem quoteRunes_append (rs : List (Option Char)) (rest : Text) :
    quoteRunes rs ++ rest = '"' :: (rs.flatMap escapeRune ++ '"' :: rest) := by
  simp [quoteRunes]

theorem stands_runes (rs : List (Option Char)) : Stands (quoteRunes rs) (.str (rs.map (·.getD replacementChar))) := by
  refine ⟨⟨_, _, rfl, by decide, by decide, by decide⟩, fun n rest hn _ => ?_⟩
  obtain ⟨m, rfl⟩ := exists_succ_of_length_le (by simp [quoteRunes]) hn
  simp only [parseValue]
  rw [quoteRunes_append, skipSpace_cons (by decide)]
  simp only [readString_quoteRunes, Option.map_some]

/-- A quoted text stands for the string. -/
theorem stands_quote (s : Text) : Stands (quote s) (.str s) := by
  have := stands_runes (s.map some)
  rwa [map_getD_some] at this

theorem standsName_runes (rs : List (Option Char)) : StandsName (quoteRunes rs) (rs.map (·.getD replacementChar)) :=
  ⟨rs, rfl, rfl⟩

/-- A quoted text stands for the name. -/
theorem standsName_quote (s : Text) : StandsName (quote s) s := ⟨s.map some, rfl, (map_getD_some s).symm⟩

/-! ## Arrays -/

/-- The empty array. -/
theorem stands_arr_nil : Stands ['[', ']'] (.arr []) := by
  refine ⟨⟨_, _, rfl, by decide, by decide, by decide⟩, fun n rest hn _ => ?_⟩
  obtain ⟨m, rfl⟩ := exists_succ_of_length_le (by simp) hn
  simp only [List.cons_append, List.nil_append, parseValue]
  rw [skipSpace_cons (by decide)]
  simp only
  rw [skipSpace_cons (by decide)]
  simp only

/-- An array with a first item. -/
theorem stands_arr_cons {t u : Text} {v : Json} {vs : List Json} (h : Stands t v) (hs : StandsItems u vs) :
    Stands ('[' :: (t ++ u)) (.arr (v :: vs)) := by
  refine ⟨⟨_, _, rfl, by decide, by decide, by decide⟩, fun n rest hn _ => ?_⟩
  have hlen : ('[' :: (t ++ u)).length = 1 + t.length + u.length := by
    simp only [List.length_cons, List.length_append]
    omega
  obtain ⟨m, rfl⟩ := exists_succ_of_length_le (by omega) hn
  obtain ⟨c, t', hct, hsp, hbr, -⟩ := h.head
  have h1 := h.reads m (u ++ rest) (by omega) (hs.numberEnd rest)
  have h2 := hs.reads m rest (by omega)
  simp only [parseValue, List.cons_append, List.append_assoc]
  rw [skipSpace_cons (by decide)]
  simp only
  rw [hct, List.cons_append] at h1 ⊢
  rw [skipSpace_cons hsp]
  split
  · rename_i heq
    exact absurd (List.cons.inj heq).1 hbr
  · rw [h1, Option.bind_some, h2, Option.map_some]

/-- The end of an array. -/
theorem standsItems_nil : StandsItems [']'] [] := by
  refine ⟨fun rest => numberEnd_cons (by decide) (by decide) (by decide) (by decide) _, fun n rest hn => ?_⟩
  obtain ⟨m, rfl⟩ := exists_succ_of_length_le (by simp) hn
  simp only [parseItems, List.cons_append, List.nil_append]
  rw [skipSpace_cons (by decide)]
  simp only

/-- One more item of an array. -/
theorem standsItems_cons {t u : Text} {v : Json} {vs : List Json} (h : Stands t v) (hs : StandsItems u vs) :
    StandsItems (',' :: (t ++ u)) (v :: vs) := by
  refine ⟨fun rest => numberEnd_cons (by decide) (by decide) (by decide) (by decide) _, fun n rest hn => ?_⟩
  have hlen : (',' :: (t ++ u)).length = 1 + t.length + u.length := by
    simp only [List.length_cons, List.length_append]
    omega
  obtain ⟨m, rfl⟩ := exists_succ_of_length_le (by omega) hn
  have h1 := h.reads m (u ++ rest) (by omega) (hs.numberEnd rest)
  have h2 := hs.reads m rest (by omega)
  simp only [parseItems, List.cons_append, List.append_assoc]
  rw [skipSpace_cons (by decide)]
  simp only
  rw [h1, Option.bind_some, h2, Option.map_some]

/-! ## Objects -/

/-- A member is read back from the front of a text. -/
theorem parseMember_stands {q t k : Text} {v : Json} (hq : StandsName q k) (h : Stands t v) {n : Nat} {rest : Text}
    (hn : q.length + 1 + t.length ≤ n) (hend : NumberEnd rest) :
    parseMember n (q ++ ':' :: (t ++ rest)) = some ((k, v), rest) := by
  obtain ⟨rs, rfl, rfl⟩ := hq
  obtain ⟨m, rfl⟩ : ∃ m, n = m + 1 := ⟨n - 1, by omega⟩
  simp only [parseMember]
  rw [quoteRunes_append, skipSpace_cons (by decide)]
  simp only [readString_quoteRunes, Option.bind_some]
  rw [skipSpace_cons (by decide)]
  simp only [h.reads m rest (by omega) hend, Option.map_some]

/-- The end of an object. -/
theorem standsMembers_nil : StandsMembers ['}'] [] := by
  refine ⟨fun rest => numberEnd_cons (by decide) (by decide) (by decide) (by decide) _, fun n rest hn => ?_⟩
  obtain ⟨m, rfl⟩ := exists_succ_of_length_le (by simp) hn
  simp only [parseMembers, List.cons_append, List.nil_append]
  rw [skipSpace_cons (by decide)]
  simp only

/-- One more member of an object. -/
theorem standsMembers_cons {q t u k : Text} {v : Json} {ms : List (Text × Json)} (hq : StandsName q k) (h : Stands t v)
    (hs : StandsMembers u ms) : StandsMembers (',' :: (q ++ ':' :: (t ++ u))) ((k, v) :: ms) := by
  refine ⟨fun rest => numberEnd_cons (by decide) (by decide) (by decide) (by decide) _, fun n rest hn => ?_⟩
  have hlen : (',' :: (q ++ ':' :: (t ++ u))).length = 1 + (q.length + 1 + t.length) + u.length := by
    simp only [List.length_cons, List.length_append]
    omega
  obtain ⟨m, rfl⟩ := exists_succ_of_length_le (by omega) hn
  have h1 := parseMember_stands hq h (n := m) (by omega) (hs.numberEnd rest)
  have h2 := hs.reads m rest (by omega)
  simp only [parseMembers, List.cons_append, List.append_assoc]
  rw [skipSpace_cons (by decide)]
  simp only
  rw [h1, Option.bind_some, h2, Option.map_some]

/-- The empty object. -/
theorem stands_obj_nil : Stands ['{', '}'] (.obj []) := by
  refine ⟨⟨_, _, rfl, by decide, by decide, by decide⟩, fun n rest hn _ => ?_⟩
  obtain ⟨m, rfl⟩ := exists_succ_of_length_le (by simp) hn
  simp only [List.cons_append, List.nil_append, parseValue]
  rw [skipSpace_cons (by decide)]
  simp only
  rw [skipSpace_cons (by decide)]
  simp only

/-- The text of an object with members: the object is what its members mean together. -/
theorem stands_obj_cons {q t u k : Text} {v : Json} {ms : List (Text × Json)} (hq : StandsName q k) (h : Stands t v)
    (hs : StandsMembers u ms) : Stands ('{' :: (q ++ ':' :: (t ++ u))) (.obj (objectOf ((k, v) :: ms))) := by
  refine ⟨⟨_, _, rfl, by decide, by decide, by decide⟩, fun n rest hn _ => ?_⟩
  have hlen : ('{' :: (q ++ ':' :: (t ++ u))).length = 1 + (q.length + 1 + t.length) + u.length := by
    simp only [List.length_cons, List.length_append]
    omega
  obtain ⟨m, rfl⟩ := exists_succ_of_length_le (by omega) hn
  have h1 := parseMember_stands hq h (n := m) (by omega) (hs.numberEnd rest)
  have h2 := hs.reads m rest (by omega)
  simp only [parseValue, List.cons_append, List.append_assoc]
  rw [skipSpace_cons (by decide)]
  simp only
  obtain ⟨rs, rfl, rfl⟩ := hq
  rw [quoteRunes_append] at h1 ⊢
  rw [skipSpace_cons (by decide)]
  split
  · rename_i heq
    exact absurd (List.cons.inj heq).1 (by decide)
  · rw [h1, Option.bind_some, h2, Option.map_some]

/-- The whole of a text is one value. -/
def IsTextOf (t : Text) (v : Json) : Prop := parseValue (t.length + 1) t = some (v, [])

/-- The text that stands for a value is read to its end. -/
theorem Stands.isTextOf {t : Text} {v : Json} (h : Stands t v) : IsTextOf t v := by
  have := h.reads (t.length + 1) [] (by omega) (by intro c hc; cases hc)
  rwa [List.append_nil] at this

/-- The text that stands for a value is read back as the value. -/
theorem Stands.parse {t : Text} {v : Json} (h : Stands t v) : parse t = some v := by
  rw [Json.parse, show parseValue (t.length + 1) t = some (v, []) from h.isTextOf, Option.map_some]

/-! ## What an object means -/

/-- A member whose name comes after every name of an object is inserted at its end. -/
theorem insertMember_append {k : Text} {v : Json} {ms : List (Text × Json)} (h : ∀ m ∈ ms, m.1 < k) :
    insertMember k v ms = ms ++ [(k, v)] := by
  induction ms with
  | nil => rfl
  | cons m ms ih =>
    obtain ⟨k', v'⟩ := m
    have hk : k' < k := h (k', v') List.mem_cons_self
    have hne : k ≠ k' := fun e => List.lt_irrefl k (by rw [e] at hk ⊢; exact hk)
    rw [insertMember, if_neg (List.lt_asymm hk), if_neg hne, ih fun m hm => h m (List.mem_cons_of_mem _ hm),
      List.cons_append]

/-- The object of members that are in the order of their names, each name once, has exactly these members. -/
theorem objectOf_of_sorted {ms : List (Text × Json)} (h : (ms.map (·.1)).Pairwise (· < ·)) : objectOf ms = ms := by
  have key : ∀ acc : List (Text × Json), ((acc ++ ms).map (·.1)).Pairwise (· < ·) →
      ms.foldl (fun acc m => insertMember m.1 m.2 acc) acc = acc ++ ms := by
    clear h
    induction ms with
    | nil => intro acc _; simp
    | cons m ms ih =>
      intro acc h
      have hlt : ∀ m' ∈ acc, m'.1 < m.1 := by
        intro m' hm'
        rw [List.map_append, List.pairwise_append] at h
        exact h.2.2 m'.1 (List.mem_map_of_mem hm') m.1 (by simp)
      rw [List.foldl_cons, insertMember_append hlt]
      have := ih (acc ++ [m]) (by simpa using h)
      simpa using this
  exact key [] (by simpa using h)

/-- A member inserted after a name stays after it. -/
theorem insertMember_after {k₀ k : Text} {v : Json} {ms : List (Text × Json)} (hk : k₀ < k)
    (h : ∀ m ∈ ms, k₀ < m.1) : ∀ m ∈ insertMember k v ms, k₀ < m.1 := by
  induction ms with
  | nil =>
    intro m hm
    rw [List.mem_singleton.mp hm]
    exact hk
  | cons m ms ih =>
    obtain ⟨k', v'⟩ := m
    rw [insertMember]
    split_ifs
    · exact List.forall_mem_cons.mpr ⟨hk, h⟩
    · exact List.forall_mem_cons.mpr ⟨hk, fun m hm => h m (List.mem_cons_of_mem _ hm)⟩
    · refine List.forall_mem_cons.mpr ⟨h _ List.mem_cons_self, ih fun m hm => h m (List.mem_cons_of_mem _ hm)⟩

theorem lt_of_not_lt_of_ne {k k' : Text} (h : ¬k < k') (hne : k ≠ k') : k' < k := by
  rcases List.le_iff_lt_or_eq.mp (List.not_lt.mp h) with h' | h'
  · exact h'
  · exact absurd h'.symm hne

/-- Inserting a member keeps an object sorted. -/
theorem insertMember_sorted {k : Text} {v : Json} {ms : List (Text × Json)} (h : (ms.map (·.1)).Pairwise (· < ·)) :
    ((insertMember k v ms).map (·.1)).Pairwise (· < ·) := by
  induction ms with
  | nil => simp [insertMember]
  | cons m ms ih =>
    obtain ⟨k', v'⟩ := m
    rw [List.map_cons, List.pairwise_cons] at h
    rw [insertMember]
    split_ifs with hlt heq
    · rw [List.map_cons, List.pairwise_cons]
      refine ⟨?_, by rw [List.map_cons, List.pairwise_cons]; exact h⟩
      intro k'' hk''
      rcases List.mem_cons.mp hk'' with rfl | hk''
      · exact hlt
      · exact List.lt_trans hlt (h.1 k'' hk'')
    · subst heq
      rw [List.map_cons, List.pairwise_cons]
      exact h
    · rw [List.map_cons, List.pairwise_cons]
      refine ⟨?_, ih h.2⟩
      intro k'' hk''
      obtain ⟨m, hm, rfl⟩ := List.mem_map.mp hk''
      refine insertMember_after (lt_of_not_lt_of_ne hlt heq) ?_ m hm
      exact fun m hm => h.1 m.1 (List.mem_map_of_mem hm)

/-- Members are well formed one by one. -/
theorem okMembers_iff {ms : List (Text × Json)} : OkMembers ms ↔ ∀ m ∈ ms, m.2.Ok := by
  induction ms with
  | nil => simp [OkMembers]
  | cons m ms ih => simp [OkMembers, ih]

/-- One more member is inserted among the others. -/
theorem objectOf_append_singleton (ms : List (Text × Json)) (m : Text × Json) :
    objectOf (ms ++ [m]) = insertMember m.1 m.2 (objectOf ms) := by
  simp [objectOf, List.foldl_append]

/-- An object is in the order of its names. -/
theorem objectOf_sorted (ms : List (Text × Json)) : ((objectOf ms).map (·.1)).Pairwise (· < ·) := by
  induction ms using List.reverseRecOn with
  | nil => simp [objectOf]
  | append_singleton ms m ih =>
    rw [objectOf_append_singleton]
    exact insertMember_sorted ih

/-- The members of an object after an insertion: the inserted one, and those of other names. -/
theorem mem_insertMember_iff {m : Text × Json} {k : Text} {v : Json} {acc : List (Text × Json)}
    (hacc : (acc.map (·.1)).Pairwise (· < ·)) : m ∈ insertMember k v acc ↔ m = (k, v) ∨ m ∈ acc ∧ m.1 ≠ k := by
  induction acc with
  | nil => simp [insertMember]
  | cons m' acc ih =>
    obtain ⟨k', v'⟩ := m'
    rw [List.map_cons, List.pairwise_cons] at hacc
    have hlt : ∀ m'' ∈ acc, k' < m''.1 := fun m'' hm'' => hacc.1 m''.1 (List.mem_map_of_mem hm'')
    rw [insertMember]
    split_ifs with h1 h2
    · have hne : ∀ m'' ∈ (k', v') :: acc, m''.1 ≠ k := by
        intro m'' hm'' heq
        rcases List.mem_cons.mp hm'' with rfl | hm''
        · exact List.lt_irrefl k (by have hk : k' = k := heq; rwa [hk] at h1)
        · exact List.lt_irrefl k (by have := List.lt_trans h1 (hlt _ hm''); rwa [heq] at this)
      rw [List.mem_cons]
      exact or_congr_right ⟨fun hm => ⟨hm, hne m hm⟩, And.left⟩
    · subst h2
      have hne : ∀ m'' ∈ acc, m''.1 ≠ k := by
        intro m'' hm'' heq
        exact List.lt_irrefl k (by have := hlt _ hm''; rwa [heq] at this)
      rw [List.mem_cons, List.mem_cons]
      refine or_congr_right ⟨fun hm => ⟨Or.inr hm, hne m hm⟩, fun hm => hm.1.resolve_left ?_⟩
      rintro rfl
      exact hm.2 rfl
    · rw [List.mem_cons, ih hacc.2, List.mem_cons]
      constructor
      · rintro (rfl | h | h)
        · exact Or.inr ⟨Or.inl rfl, fun heq => h2 heq.symm⟩
        · exact Or.inl h
        · exact Or.inr ⟨Or.inr h.1, h.2⟩
      · rintro (h | ⟨h | h, hne⟩)
        · exact Or.inr (Or.inl h)
        · exact Or.inl h
        · exact Or.inr (Or.inr ⟨h, hne⟩)

/-- A member of an object is the last one of its name among the members the object was made from. -/
theorem mem_objectOf_iff {ms : List (Text × Json)} {m : Text × Json} :
    m ∈ objectOf ms ↔ ∃ before after, ms = before ++ m :: after ∧ m.1 ∉ after.map (·.1) := by
  induction ms using List.reverseRecOn with
  | nil => simp [objectOf]
  | append_singleton ms m' ih =>
    rw [objectOf_append_singleton, mem_insertMember_iff (objectOf_sorted ms), ih]
    constructor
    · rintro (rfl | ⟨⟨before, after, rfl, hno⟩, hne⟩)
      · exact ⟨ms, [], rfl, by simp⟩
      · refine ⟨before, after ++ [m'], by simp, ?_⟩
        rw [List.map_append, List.mem_append, not_or]
        exact ⟨hno, by simpa using hne⟩
    · rintro ⟨before, after, heq, hno⟩
      rcases List.eq_nil_or_concat after with rfl | ⟨after', last, rfl⟩
      · exact Or.inl (List.cons.inj (List.append_inj_right' heq rfl)).1.symm
      · rw [List.concat_eq_append] at heq hno
        have heq' : ms ++ [m'] = (before ++ m :: after') ++ [last] := by rw [heq]; simp
        have hlast := (List.cons.inj (List.append_inj_right' heq' rfl)).1
        rw [List.map_append, List.mem_append, not_or, ← hlast] at hno
        exact Or.inr ⟨⟨before, after', List.append_inj_left' heq' rfl, hno.1⟩, by simpa using hno.2⟩

/-- Every member of an object is one of the members it was made from. -/
theorem mem_objectOf {ms : List (Text × Json)} {m : Text × Json} (h : m ∈ objectOf ms) : m ∈ ms := by
  obtain ⟨before, after, rfl, -⟩ := mem_objectOf_iff.mp h
  simp

/-- The names of an object are different. -/
theorem objectOf_nodup (ms : List (Text × Json)) : ((objectOf ms).map (·.1)).Nodup := by
  refine (objectOf_sorted ms).imp ?_
  rintro k _ hlt rfl
  exact List.lt_irrefl k hlt

/-- An object keeps all the members it is made from exactly when their names are different. -/
theorem objectOf_perm_iff {ms : List (Text × Json)} : (objectOf ms).Perm ms ↔ (ms.map (·.1)).Nodup := by
  constructor
  · intro h
    exact (h.map (·.1)).nodup_iff.mp (objectOf_nodup ms)
  · intro h
    refine (List.perm_ext_iff_of_nodup (objectOf_nodup ms).of_map h.of_map).mpr fun m => ?_
    rw [mem_objectOf_iff]
    constructor
    · rintro ⟨before, after, rfl, -⟩
      simp
    · intro hm
      obtain ⟨before, after, rfl⟩ := List.append_of_mem hm
      refine ⟨before, after, rfl, ?_⟩
      rw [List.map_append, List.map_cons] at h
      exact (List.nodup_cons.mp (List.nodup_append.mp h).2.1).1

/-- An object made from members with well-formed values is well formed. -/
theorem objectOf_ok {ms : List (Text × Json)} (h : OkMembers ms) : (Json.obj (objectOf ms)).Ok :=
  ⟨objectOf_sorted ms, okMembers_iff.mpr fun m hm => okMembers_iff.mp h m (mem_objectOf hm)⟩

mutual

/-- The text of a well-formed value stands for it. -/
theorem stands_marshal : ∀ v : Json, v.Ok → Stands (marshal v) v
  | .null, _ => stands_null
  | .bool b, _ => stands_bool b
  | .num _, h => stands_num h
  | .str s, _ => stands_quote s
  | .arr [], _ => stands_arr_nil
  | .arr (v :: vs), h => stands_arr_cons (stands_marshal v h.1) (standsItems_marshal vs h.2)
  | .obj [], _ => stands_obj_nil
  | .obj ((k, v) :: ms), h => by
    have := stands_obj_cons (standsName_quote k) (stands_marshal v h.2.1) (standsMembers_marshal ms h.2.2)
    rwa [objectOf_of_sorted h.1] at this

/-- The texts of well-formed items stand for them. -/
theorem standsItems_marshal : ∀ vs : List Json, OkItems vs → StandsItems (marshalItems vs) vs
  | [], _ => standsItems_nil
  | v :: vs, h => standsItems_cons (stands_marshal v h.1) (standsItems_marshal vs h.2)

/-- The texts of well-formed members stand for them. -/
theorem standsMembers_marshal : ∀ ms : List (Text × Json), OkMembers ms → StandsMembers (marshalMembers ms) ms
  | [], _ => standsMembers_nil
  | (k, v) :: ms, h => standsMembers_cons (standsName_quote k) (stands_marshal v h.1) (standsMembers_marshal ms h.2)

end

/-- The text of a well-formed value is read back as the value. -/
theorem parse_marshal {v : Json} (h : v.Ok) : parse (marshal v) = some v := (stands_marshal v h).parse

/-! ## What is read is well formed -/

/-- Digits that were read are read again when they are cut off and put in front of a text that starts with no digit. -/
theorem readDigits_again {t u v w : Text} (h : readDigits t = some (u, v)) (hw : ∀ c ∈ w.head?, c.isDigit = false) :
    readDigits (u ++ w) = some (u, w) ∧ ∃ c u', u = c :: u' ∧ c.isDigit = true := by
  unfold readDigits at h
  split_ifs at h with hne
  simp only [Option.some.injEq, Prod.mk.injEq] at h
  obtain ⟨rfl, -⟩ := h
  have hall : ∀ c ∈ t.takeWhile Char.isDigit, c.isDigit = true := fun c hc => List.mem_takeWhile_imp hc
  obtain ⟨h1, h2⟩ := takeWhile_dropWhile_append Char.isDigit (t.takeWhile Char.isDigit) w fun _ => hw
  rw [List.takeWhile_eq_self_iff.mpr hall] at h1
  rw [List.dropWhile_eq_nil_iff.mpr hall, List.nil_append] at h2
  constructor
  · rw [readDigits, h1, h2, if_neg hne]
  · obtain ⟨c, u', hcu⟩ := List.exists_cons_of_ne_nil hne
    exact ⟨c, u', hcu, hall c (by rw [hcu]; exact List.mem_cons_self)⟩

/-- What was read as the integer of a number is read as it again. -/
theorem readIntPart_again {t u v w : Text} (h : readIntPart t = some (u, v)) (hw : ∀ c ∈ w.head?, c.isDigit = false) :
    readIntPart (u ++ w) = some (u, w) ∧ ∃ c u', u = c :: u' ∧ c.isDigit = true := by
  cases t with
  | nil => simp [readIntPart, readDigits] at h
  | cons c t =>
    by_cases hc : c = '0'
    · subst hc
      simp only [readIntPart, Option.some.injEq, Prod.mk.injEq] at h
      obtain ⟨rfl, -⟩ := h
      exact ⟨rfl, '0', [], rfl, by decide⟩
    · rw [readIntPart_cons hc] at h
      obtain ⟨hagain, c', u', rfl, hd⟩ := readDigits_again h hw
      have hc' : c' = c := by
        unfold readDigits at h
        split_ifs at h with hne
        simp only [Option.some.injEq, Prod.mk.injEq] at h
        by_cases hcd : c.isDigit = true
        · rw [List.takeWhile_cons_of_pos hcd] at h
          exact (List.cons.inj h.1).1.symm
        · rw [List.takeWhile_cons_of_neg hcd] at hne
          exact absurd rfl hne
      subst hc'
      rw [List.cons_append, readIntPart_cons hc, ← List.cons_append]
      exact ⟨hagain, c', u', rfl, hd⟩

/-- What was read as a fraction is read as it again. -/
theorem readFraction_again {t u v w : Text} (h : readFraction t = some (u, v))
    (hw : ∀ c ∈ w.head?, c.isDigit = false ∧ c ≠ '.') :
    readFraction (u ++ w) = some (u, w) ∧ (u = [] ∨ ∃ u', u = '.' :: u') := by
  unfold readFraction at h
  split at h
  · rename_i t
    rw [Option.map_eq_some_iff] at h
    obtain ⟨⟨ds, v'⟩, hd, heq⟩ := h
    simp only [Prod.mk.injEq] at heq
    obtain ⟨rfl, -⟩ := heq
    refine ⟨?_, Or.inr ⟨ds, rfl⟩⟩
    simp only [List.cons_append, readFraction, (readDigits_again hd fun c hc => (hw c hc).1).1, Option.map_some]
  · simp only [Option.some.injEq, Prod.mk.injEq] at h
    obtain ⟨rfl, -⟩ := h
    exact ⟨readFraction_of_ne fun c hc => (hw c hc).2, Or.inl rfl⟩

/-- What was read as a sign is read as it again. -/
theorem readSign_again {t u v w : Text} (h : readSign t = some (u, v)) (hw : ∀ c ∈ w.head?, c ≠ '-') :
    readSign (u ++ w) = some (u, w) := by
  unfold readSign at h
  split at h
  · simp only [Option.some.injEq, Prod.mk.injEq] at h
    obtain ⟨rfl, -⟩ := h
    rfl
  · simp only [Option.some.injEq, Prod.mk.injEq] at h
    obtain ⟨rfl, -⟩ := h
    rw [List.nil_append]
    unfold readSign
    split
    · exact absurd rfl (hw '-' rfl)
    · rfl

theorem readExponentSign_again {t u v w : Text} (h : readExponentSign t = some (u, v))
    (hw : ∀ c ∈ w.head?, c ≠ '-' ∧ c ≠ '+') : readExponentSign (u ++ w) = some (u, w) := by
  unfold readExponentSign at h
  split at h
  · simp only [Option.some.injEq, Prod.mk.injEq] at h
    obtain ⟨rfl, -⟩ := h
    rfl
  · have hs := readSign_again h fun c hc => (hw c hc).1
    unfold readExponentSign
    split
    · rename_i w' heq
      unfold readSign at h
      split at h
      · simp only [Option.some.injEq, Prod.mk.injEq] at h
        obtain ⟨rfl, -⟩ := h
        simp at heq
      · simp only [Option.some.injEq, Prod.mk.injEq] at h
        obtain ⟨rfl, -⟩ := h
        rw [List.nil_append] at heq
        exact absurd rfl (hw '+' (by rw [heq]; rfl)).2
    · exact hs

/-- What was read as an exponent is read as it again. -/
theorem readExponent_again {t u v : Text} (h : readExponent t = some (u, v)) :
    readExponent u = some (u, []) ∧ ∀ c ∈ u.head?, c.isDigit = false ∧ c ≠ '.' := by
  cases t with
  | nil =>
    simp only [readExponent, Option.some.injEq, Prod.mk.injEq] at h
    obtain ⟨rfl, -⟩ := h
    exact ⟨rfl, by simp⟩
  | cons c t =>
    by_cases hc : c = 'e' ∨ c = 'E'
    · simp only [readExponent, if_pos hc, Option.bind_eq_some_iff, Option.map_eq_some_iff] at h
      obtain ⟨⟨sg, w⟩, hs, ⟨ds, w'⟩, hd, heq⟩ := h
      simp only [Prod.mk.injEq] at heq
      obtain ⟨rfl, -⟩ := heq
      obtain ⟨hd', d, ds', rfl, hdig⟩ := readDigits_again (w := []) hd (by simp)
      rw [List.append_nil] at hd'
      have hsign : ∀ c' ∈ (d :: ds').head?, c' ≠ '-' ∧ c' ≠ '+' := by
        intro c' hc'
        rw [List.head?_cons, Option.mem_some_iff] at hc'
        subst hc'
        constructor <;>
        · rintro rfl
          exact absurd hdig (by decide)
      constructor
      · simp only [readExponent, if_pos hc, readExponentSign_again hs hsign, Option.bind_some, hd', Option.map_some]
      · intro c' hc'
        rw [List.head?_cons, Option.mem_some_iff] at hc'
        subst hc'
        rcases hc with rfl | rfl <;> decide
    · simp only [readExponent, if_neg hc, Option.some.injEq, Prod.mk.injEq] at h
      obtain ⟨rfl, -⟩ := h
      exact ⟨rfl, by simp⟩

/-- A number that was read is a number token. -/
theorem readNumber_again {t token v : Text} (h : readNumber t = some (token, v)) :
    readNumber token = some (token, []) := by
  simp only [readNumber, Option.bind_eq_some_iff, Option.map_eq_some_iff] at h
  obtain ⟨⟨sg, t1⟩, h1, ⟨ip, t2⟩, h2, ⟨fr, t3⟩, h3, ⟨ex, t4⟩, h4, heq⟩ := h
  simp only [Prod.mk.injEq] at heq
  obtain ⟨rfl, -⟩ := heq
  obtain ⟨h4', hex⟩ := readExponent_again h4
  obtain ⟨h3', hfr⟩ := readFraction_again h3 hex
  have hdot : ∀ c ∈ (fr ++ ex).head?, c.isDigit = false := by
    rcases hfr with rfl | ⟨u', rfl⟩
    · exact fun c hc => (hex c hc).1
    · intro c hc
      rw [List.cons_append, List.head?_cons, Option.mem_some_iff] at hc
      subst hc
      decide
  obtain ⟨h2', d, ip', rfl, hdig⟩ := readIntPart_again h2 hdot
  have hminus : ∀ c ∈ (d :: ip' ++ (fr ++ ex)).head?, c ≠ '-' := by
    intro c hc
    rw [List.cons_append, List.head?_cons, Option.mem_some_iff] at hc
    subst hc
    rintro rfl
    exact absurd hdig (by decide)
  have h1' := readSign_again h1 hminus
  simp only [readNumber, List.append_assoc, h1', Option.bind_some, h2', h3', h4', Option.map_some]

/-- Whatever is read with some fuel is well formed, at every level of the reader. -/
theorem parse_ok_fuel (n : Nat) :
    (∀ t v r, parseValue n t = some (v, r) → v.Ok) ∧ (∀ t vs r, parseItems n t = some (vs, r) → OkItems vs) ∧
    (∀ t m r, parseMember n t = some (m, r) → m.2.Ok) ∧ (∀ t ms r, parseMembers n t = some (ms, r) → OkMembers ms) := by
  induction n with
  | zero => refine ⟨?_, ?_, ?_, ?_⟩ <;> intro t v r h <;> simp [parseValue, parseItems, parseMember, parseMembers] at h
  | succ n ih =>
    obtain ⟨ihValue, ihItems, ihMember, ihMembers⟩ := ih
    refine ⟨?_, ?_, ?_, ?_⟩
    · intro t v r h
      rw [parseValue] at h
      split at h
      · cases h; trivial
      · cases h; trivial
      · cases h; trivial
      · obtain ⟨p, -, hp⟩ := Option.map_eq_some_iff.mp h
        cases hp; trivial
      · split at h
        · cases h; trivial
        · obtain ⟨⟨v', u⟩, hv, h⟩ := Option.bind_eq_some_iff.mp h
          obtain ⟨⟨vs, u'⟩, hvs, hp⟩ := Option.map_eq_some_iff.mp h
          cases hp
          exact ⟨ihValue _ _ _ hv, ihItems _ _ _ hvs⟩
      · split at h
        · cases h; exact ⟨List.Pairwise.nil, trivial⟩
        · obtain ⟨⟨m, u⟩, hm, h⟩ := Option.bind_eq_some_iff.mp h
          obtain ⟨⟨ms, u'⟩, hms, hp⟩ := Option.map_eq_some_iff.mp h
          cases hp
          exact objectOf_ok ⟨ihMember _ _ _ hm, ihMembers _ _ _ hms⟩
      · obtain ⟨p, hn, hp⟩ := Option.map_eq_some_iff.mp h
        cases hp
        exact readNumber_again hn
    · intro t vs r h
      rw [parseItems] at h
      split at h
      · cases h; trivial
      · obtain ⟨⟨v, u⟩, hv, h⟩ := Option.bind_eq_some_iff.mp h
        obtain ⟨⟨vs', u'⟩, hvs, hp⟩ := Option.map_eq_some_iff.mp h
        cases hp
        exact ⟨ihValue _ _ _ hv, ihItems _ _ _ hvs⟩
      · cases h
    · intro t m r h
      rw [parseMember] at h
      split at h
      · obtain ⟨⟨k, u⟩, -, h⟩ := Option.bind_eq_some_iff.mp h
        simp only at h
        split at h
        · obtain ⟨⟨v, u'⟩, hv, hp⟩ := Option.map_eq_some_iff.mp h
          cases hp
          exact ihValue _ _ _ hv
        · cases h
      · cases h
    · intro t ms r h
      rw [parseMembers] at h
      split at h
      · cases h; trivial
      · obtain ⟨⟨m, u⟩, hm, h⟩ := Option.bind_eq_some_iff.mp h
        obtain ⟨⟨ms', u'⟩, hms, hp⟩ := Option.map_eq_some_iff.mp h
        cases hp
        exact ⟨ihMember _ _ _ hm, ihMembers _ _ _ hms⟩
      · cases h

/-- Every value the reader accepts is well formed. -/
theorem parse_ok {t : Text} {v : Json} (h : parse t = some v) : v.Ok := by
  obtain ⟨p, hp, rfl⟩ := Option.map_eq_some_iff.mp h
  exact (parse_ok_fuel _).1 _ _ _ hp

end Json

end Soroscan

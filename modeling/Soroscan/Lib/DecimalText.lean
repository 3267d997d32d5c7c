import Mathlib.Data.List.DropRight
import Soroscan.Lib.Positional
import Soroscan.Lib.Utf16

/-!
# Decimal numbers in strings

Strings of digits as numbers, and what the string operations of the platform do to them: padding with zeros, trimming zeros from
the end, and the commas that set groups of three digits apart. `Denotes` says which number a plain decimal stands for: digits, perhaps
with a minus sign before them and a fraction behind them.
-/

namespace Soroscan

namespace DecimalText

/-- The code unit of the digit zero. -/
def zero : UInt16 := 48

/-- The sign of a number below zero. -/
def minus : UInt16 := 45

/-- The decimal point. -/
def dot : UInt16 := 46

/-- The mark between groups of three digits. -/
def comma : UInt16 := 44

/-- `\d`. -/
def isDigit (u : UInt16) : Bool := decide (48 ≤ u) && decide (u ≤ 57)

/-- `\w`. -/
def isWord (u : UInt16) : Bool :=
  isDigit u || (decide (65 ≤ u) && decide (u ≤ 90)) || (decide (97 ≤ u) && decide (u ≤ 122)) || u == 95

/-- The value of a digit. -/
def digitValue (u : UInt16) : Nat := u.toNat - 48

/-- The number that a string of digits denotes. -/
def numberOf (s : JsString) : Nat := Positional.value 10 digitValue s

/-- `padStart` with zeros. -/
def padStart (length : Nat) (s : JsString) : JsString := List.replicate (length - s.length) zero ++ s

/-- `padEnd` with zeros. -/
def padEnd (length : Nat) (s : JsString) : JsString := s ++ List.replicate (length - s.length) zero

/-- `replace(/0+$/, "")`. -/
def trimZeros (s : JsString) : JsString := s.rdropWhile fun u => u == zero

/-- `(?=(\d{3})+(?!\d))`: a run of digits begins here, and its length is a multiple of three. -/
def threesAhead (s : JsString) : Bool :=
  decide ((s.takeWhile isDigit).length ≠ 0) && decide ((s.takeWhile isDigit).length % 3 = 0)

/-- `groupThousands` from a place on, with whether a word character stands before it. -/
def groupFrom : Bool → JsString → JsString
  | _, [] => []
  | wordBefore, u :: s =>
    -- `\B` holds between two word characters, and between two others
    if wordBefore == isWord u && threesAhead (u :: s) then comma :: u :: groupFrom (isWord u) s
    else u :: groupFrom (isWord u) s

/-- `replace(/\B(?=(\d{3})+(?!\d))/g, ",")`. -/
def groupThousands (s : JsString) : JsString := groupFrom false s

/-- A string without its commas. -/
def withoutCommas (s : JsString) : JsString := s.filter fun u => decide (u ≠ comma)

/-- What stands before the first dot, without a minus sign at the front. -/
def integerPart (s : JsString) : JsString := (s.dropWhile fun u => u == minus).takeWhile fun u => decide (u ≠ dot)

/-- What stands behind the first dot. -/
def fractionPart (s : JsString) : JsString := (s.dropWhile fun u => decide (u ≠ dot)).drop 1

/-- The dot and the digits behind it, if there are any. -/
def fractionText (fraction : JsString) : JsString := if fraction = [] then [] else dot :: fraction

/-- Digits, and perhaps a dot with more digits behind it. -/
structure IsPlain (s int fraction : JsString) : Prop where
  ne_nil : int ≠ []
  intDigits : ∀ u ∈ int, isDigit u = true
  fractionDigits : ∀ u ∈ fraction, isDigit u = true
  eq : s = int ++ fractionText fraction

/-- The number of a plain decimal. -/
def valueOf (int fraction : JsString) : ℚ := numberOf int + numberOf fraction / 10 ^ fraction.length

/-- A string denotes a number as a plain decimal, perhaps with a minus sign before it. -/
inductive Denotes : JsString → ℚ → Prop
  | plain {s int fraction : JsString} (h : IsPlain s int fraction) : Denotes s (valueOf int fraction)
  | negative {s int fraction : JsString} (h : IsPlain s int fraction) : Denotes (minus :: s) (-valueOf int fraction)

/-- A string is an integer: digits, perhaps with a minus sign before them. -/
inductive IsInteger : JsString → ℤ → Prop
  | plain {s : JsString} (hne : s ≠ []) (h : ∀ u ∈ s, isDigit u = true) : IsInteger s (numberOf s)
  | negative {s : JsString} (hne : s ≠ []) (h : ∀ u ∈ s, isDigit u = true) : IsInteger (minus :: s) (-numberOf s)

/-- Groups of three digits, each behind a comma, after a first group of one to three. -/
def InThrees (s : JsString) : Prop :=
  ∃ (first : JsString) (groups : List JsString), s = first ++ groups.flatMap (fun g => comma :: g) ∧
    0 < first.length ∧ first.length ≤ 3 ∧ (∀ u ∈ first, isDigit u = true) ∧
    ∀ g ∈ groups, g.length = 3 ∧ ∀ u ∈ g, isDigit u = true

/-! ## Numbers of digits -/

theorem isDigits : Positional.IsDigits 10 digitValue fun u => isDigit u = true := by
  have hbounds : ∀ u, isDigit u = true → 48 ≤ u.toNat ∧ u.toNat ≤ 57 := by
    intro u hu
    rw [isDigit, Bool.and_eq_true, decide_eq_true_eq, decide_eq_true_eq, UInt16.le_iff_toNat_le, UInt16.le_iff_toNat_le] at hu
    exact hu
  constructor
  · intro u hu
    have := hbounds u hu
    rw [digitValue]
    omega
  · intro u v hu hv
    have := hbounds u hu
    have := hbounds v hv
    rw [digitValue, digitValue, UInt16.lt_iff_toNat_lt]
    omega
  · intro u v hu hv h
    have := hbounds u hu
    have := hbounds v hv
    rw [digitValue, digitValue] at h
    exact UInt16.toNat_inj.mp (by omega)

/-- Digits in front of others count for more by as many powers of ten. -/
theorem numberOf_append (s t : JsString) : numberOf (s ++ t) = numberOf s * 10 ^ t.length + numberOf t :=
  Positional.value_append s t

/-- Zeros count for nothing. -/
theorem numberOf_replicate_zero (k : Nat) : numberOf (List.replicate k zero) = 0 := by
  induction k with
  | zero => rfl
  | succ k ih =>
    rw [List.replicate_succ', numberOf_append, ih, Nat.zero_mul, Nat.zero_add]
    rfl

/-- Zeros in front keep the number. -/
theorem numberOf_padStart (length : Nat) (s : JsString) : numberOf (padStart length s) = numberOf s := by
  rw [padStart, numberOf_append, numberOf_replicate_zero, Nat.zero_mul, Nat.zero_add]

/-- Zeros behind multiply the number. -/
theorem numberOf_padEnd (length : Nat) (s : JsString) : numberOf (padEnd length s) = numberOf s * 10 ^ (length - s.length) := by
  rw [padEnd, numberOf_append, numberOf_replicate_zero, List.length_replicate, Nat.add_zero]

/-- A text is filled up to a length from the front, and one that has it is left. -/
theorem length_padStart (length : Nat) (s : JsString) : (padStart length s).length = max length s.length := by
  rw [padStart, List.length_append, List.length_replicate]
  omega

/-- A text is filled up to a length from behind, and one that has it is left. -/
theorem length_padEnd (length : Nat) (s : JsString) : (padEnd length s).length = max length s.length := by
  rw [padEnd, List.length_append, List.length_replicate]
  omega

theorem isDigit_padStart {length : Nat} {s : JsString} (h : ∀ u ∈ s, isDigit u = true) : ∀ u ∈ padStart length s, isDigit u = true := by
  intro u hu
  rcases List.mem_append.mp hu with hu | hu
  · rw [(List.mem_replicate.mp hu).2]
    rfl
  · exact h u hu

/-- Digits denote less than the next power of ten. -/
theorem numberOf_lt {s : JsString} (h : ∀ u ∈ s, isDigit u = true) : numberOf s < 10 ^ s.length := Positional.value_lt isDigits h

/-- A string is what is left when its zeros at the end are trimmed, and these zeros. -/
theorem trimZeros_append (s : JsString) : ∃ k, s = trimZeros s ++ List.replicate k zero := by
  refine ⟨(s.rtakeWhile fun u => u == zero).length, ?_⟩
  have hzeros : s.rtakeWhile (fun u => u == zero) = List.replicate (s.rtakeWhile fun u => u == zero).length zero :=
    List.eq_replicate_iff.mpr ⟨rfl, fun u hu => by simpa using List.mem_rtakeWhile_imp hu⟩
  rw [← hzeros]
  exact List.rdropWhile_append_rtakeWhile.symm

/-- A trimmed text does not end in a zero. -/
theorem trimZeros_last_ne (s : JsString) : (trimZeros s).getLast? ≠ some zero := by
  intro h
  by_cases hnil : trimZeros s = []
  · rw [hnil] at h
    cases h
  · rw [List.getLast?_eq_some_getLast hnil] at h
    exact List.rdropWhile_last_not _ _ hnil (beq_iff_eq.mpr (Option.some.inj h))

/-- Behind a text that is trimmed away the text in front of it is trimmed. -/
theorem trimZeros_append_eq (s t : JsString) :
    trimZeros (s ++ t) = if trimZeros t = [] then trimZeros s else s ++ trimZeros t := by
  have hdrop : trimZeros (s ++ t) = (if (t.reverse.dropWhile fun u => u == zero).isEmpty then s.reverse.dropWhile fun u => u == zero
      else (t.reverse.dropWhile fun u => u == zero) ++ s.reverse).reverse := by
    rw [trimZeros, List.rdropWhile, List.reverse_append, List.dropWhile_append]
  rw [hdrop]
  by_cases h : (t.reverse.dropWhile fun u => u == zero) = []
  · have hnil : trimZeros t = [] := by rw [trimZeros, List.rdropWhile, h, List.reverse_nil]
    rw [if_pos hnil, h, List.isEmpty_nil, if_pos rfl]
    rfl
  · have hne : trimZeros t ≠ [] := fun hnil => h (List.reverse_eq_nil_iff.mp hnil)
    rw [if_neg hne, if_neg (by rwa [List.isEmpty_iff]), List.reverse_append, List.reverse_reverse]
    rfl

theorem trimZeros_replicate (k : Nat) : trimZeros (List.replicate k zero) = [] :=
  List.rdropWhile_eq_nil_iff.mpr fun _ hu => beq_iff_eq.mpr (List.mem_replicate.mp hu).2

/-- Zeros at the end make no difference to a trimmed text. -/
theorem trimZeros_append_zeros (s : JsString) (k : Nat) : trimZeros (s ++ List.replicate k zero) = trimZeros s := by
  rw [trimZeros_append_eq, if_pos (trimZeros_replicate k)]

theorem trimZeros_trimZeros (s : JsString) : trimZeros (trimZeros s) = trimZeros s := List.rdropWhile_idempotent _ _

/-- Trimmed digits are digits. -/
theorem isDigit_trimZeros {s : JsString} (h : ∀ u ∈ s, isDigit u = true) : ∀ u ∈ trimZeros s, isDigit u = true :=
  fun u hu => h u ((List.rdropWhile_prefix _ s).subset hu)

/-- Zeros at the end of a fraction do not count. -/
theorem fraction_trimZeros (s : JsString) :
    (numberOf (trimZeros s) : ℚ) / 10 ^ (trimZeros s).length = numberOf s / 10 ^ s.length := by
  obtain ⟨k, hk⟩ := trimZeros_append s
  have hlength : s.length = (trimZeros s).length + k := by
    conv_lhs => rw [hk, List.length_append, List.length_replicate]
  have hvalue : numberOf s = numberOf (trimZeros s) * 10 ^ k := by
    conv_lhs => rw [hk, numberOf_append, numberOf_replicate_zero, List.length_replicate, Nat.add_zero]
  rw [hlength, hvalue, pow_add, Nat.cast_mul, Nat.cast_pow, Nat.cast_ofNat, mul_div_mul_right _ _ (by positivity)]

/-! ## Written numbers -/

/-- Characters of one code unit each. -/
theorem js_of_ascii {t : Text} (h : ∀ c ∈ t, c.toNat < 0x10000) : js t = t.map fun c => UInt16.ofNat c.toNat := by
  induction t with
  | nil => rfl
  | cons c t ih =>
    have hc := h c List.mem_cons_self
    rw [List.map_cons, ← ih fun c' hc' => h c' (List.mem_cons_of_mem _ hc'), js, List.flatMap_cons, unitsOf, if_pos hc]
    rfl

theorem digit_lt_of_mem_decimal {n : Nat} {c : Char} (h : c ∈ decimal n) : 48 ≤ c.toNat ∧ c.toNat ≤ 57 := by
  have hdigit := isDigit_of_mem_decimal h
  rw [Char.isDigit, Bool.and_eq_true, decide_eq_true_eq, decide_eq_true_eq] at hdigit
  exact hdigit

/-- The decimal form of a number has one code unit for each digit. -/
theorem js_decimal (n : Nat) : js (decimal n) = (decimal n).map fun c => UInt16.ofNat c.toNat := by
  refine js_of_ascii fun c hc => ?_
  have := digit_lt_of_mem_decimal hc
  omega

theorem length_js_decimal (n : Nat) : (js (decimal n)).length = (decimal n).length := by
  rw [js_decimal, List.length_map]

theorem js_decimal_ne_nil (n : Nat) : js (decimal n) ≠ [] := by
  rw [js_decimal]
  exact fun h => decimal_ne_nil n (List.map_eq_nil_iff.mp h)

/-- Its code units are digits. -/
theorem isDigit_js_decimal (n : Nat) : ∀ u ∈ js (decimal n), isDigit u = true := by
  intro u hu
  rw [js_decimal] at hu
  obtain ⟨c, hc, rfl⟩ := List.mem_map.mp hu
  obtain ⟨hlow, hhigh⟩ := digit_lt_of_mem_decimal hc
  have hvalue : (UInt16.ofNat c.toNat).toNat = c.toNat := by rw [UInt16.toNat_ofNat', Nat.mod_eq_of_lt (by omega)]
  rw [isDigit, Bool.and_eq_true, decide_eq_true_eq, decide_eq_true_eq, UInt16.le_iff_toNat_le, UInt16.le_iff_toNat_le, hvalue]
  exact ⟨hlow, hhigh⟩

/-- A written number is read back. -/
theorem numberOf_js_decimal (n : Nat) : numberOf (js (decimal n)) = n := by
  have hfold : ∀ (t : Text) (m : Nat), (∀ c ∈ t, 48 ≤ c.toNat ∧ c.toNat ≤ 57) →
      Positional.readOn 10 digitValue m (t.map fun c => UInt16.ofNat c.toNat) = Nat.ofDigitChars 10 t m := by
    intro t
    induction t with
    | nil => exact fun _ _ => rfl
    | cons c t ih =>
      intro m h
      obtain ⟨hlow, hhigh⟩ := h c List.mem_cons_self
      have hvalue : (UInt16.ofNat c.toNat).toNat = c.toNat := by rw [UInt16.toNat_ofNat', Nat.mod_eq_of_lt (by omega)]
      rw [Nat.ofDigitChars_cons, ← ih _ fun c' hc' => h c' (List.mem_cons_of_mem _ hc'), List.map_cons, Positional.readOn,
        List.foldl_cons, digitValue, hvalue, Nat.mul_comm m 10]
      rfl
  rw [js_decimal, numberOf, Positional.value, hfold _ _ fun c hc => digit_lt_of_mem_decimal hc, ofDigitChars_decimal]

/-! ## Groups of three -/

theorem isWord_of_isDigit {u : UInt16} (h : isDigit u = true) : isWord u = true := by
  rw [isWord, h]
  rfl

/-- In front of digits alone a group ends where their number is a positive multiple of three. -/
theorem threesAhead_eq {s : JsString} (h : ∀ u ∈ s, isDigit u = true) :
    threesAhead s = (decide (s.length ≠ 0) && decide (s.length % 3 = 0)) := by
  rw [threesAhead, List.takeWhile_eq_self_iff.mpr h]

/-- Between two digits, a comma stands where a multiple of three digits is left. -/
theorem groupFrom_cons {wordBefore : Bool} {u : UInt16} {s : JsString} (hu : isDigit u = true) (h : ∀ v ∈ s, isDigit v = true) :
    groupFrom wordBefore (u :: s) =
      if wordBefore = true ∧ (s.length + 1) % 3 = 0 then comma :: u :: groupFrom true s else u :: groupFrom true s := by
  rw [groupFrom, isWord_of_isDigit hu, threesAhead_eq (List.forall_mem_cons.mpr ⟨hu, h⟩), List.length_cons]
  refine if_congr ?_ rfl rfl
  simp

/-- A number of digits that is a multiple of three is cut into groups, each behind a comma. -/
theorem exists_groups (k : Nat) {s : JsString} (h : ∀ u ∈ s, isDigit u = true) (hlength : s.length = 3 * k) :
    ∃ groups : List JsString, groupFrom true s = groups.flatMap (fun g => comma :: g) ∧ groups.flatten = s ∧
      ∀ g ∈ groups, g.length = 3 ∧ ∀ u ∈ g, isDigit u = true := by
  induction k generalizing s with
  | zero =>
    rw [List.length_eq_zero_iff.mp hlength]
    exact ⟨[], rfl, rfl, fun _ hg => absurd hg List.not_mem_nil⟩
  | succ k ih =>
    match s, hlength with
    | a :: b :: c :: rest, hlength =>
      obtain ⟨ha, h⟩ := List.forall_mem_cons.mp h
      obtain ⟨hb, h⟩ := List.forall_mem_cons.mp h
      obtain ⟨hc, h⟩ := List.forall_mem_cons.mp h
      have hrest : rest.length = 3 * k := by
        rw [List.length_cons, List.length_cons, List.length_cons] at hlength
        omega
      obtain ⟨groups, hgroups, hflatten, hthree⟩ := ih h hrest
      refine ⟨[a, b, c] :: groups, ?_, by rw [List.flatten_cons, hflatten]; rfl, List.forall_mem_cons.mpr ⟨⟨rfl, ?_⟩, hthree⟩⟩
      · rw [groupFrom_cons ha (List.forall_mem_cons.mpr ⟨hb, List.forall_mem_cons.mpr ⟨hc, h⟩⟩),
          groupFrom_cons hb (List.forall_mem_cons.mpr ⟨hc, h⟩), groupFrom_cons hc h, List.length_cons, List.length_cons, hrest,
          if_pos ⟨rfl, by omega⟩, if_neg (by omega), if_neg (by omega), hgroups]
        rfl
      · exact List.forall_mem_cons.mpr ⟨ha, List.forall_mem_cons.mpr ⟨hb, List.forall_mem_cons.mpr ⟨hc, fun _ hu => absurd hu
          List.not_mem_nil⟩⟩⟩

/-- The first group takes the digits that are over, or three. -/
theorem exists_grouped {s : JsString} (h : ∀ u ∈ s, isDigit u = true) (hne : s ≠ []) :
    ∃ (first : JsString) (groups : List JsString), groupThousands s = first ++ groups.flatMap (fun g => comma :: g) ∧
      first ++ groups.flatten = s ∧ 0 < first.length ∧ first.length ≤ 3 ∧
      ∀ g ∈ groups, g.length = 3 ∧ ∀ u ∈ g, isDigit u = true := by
  have hpos := List.length_pos_iff.mpr hne
  obtain ⟨k, hk⟩ : ∃ k, s.length = 3 * k + 1 ∨ s.length = 3 * k + 2 ∨ s.length = 3 * k + 3 := ⟨(s.length - 1) / 3, by omega⟩
  rw [groupThousands]
  rcases hk with hk | hk | hk
  · obtain ⟨a, rest, rfl⟩ := List.exists_cons_of_length_eq_add_one hk
    obtain ⟨ha, h⟩ := List.forall_mem_cons.mp h
    obtain ⟨groups, hgroups, hflatten, hthree⟩ := exists_groups k h (by rw [List.length_cons] at hk; omega)
    refine ⟨[a], groups, ?_, by rw [hflatten]; rfl, Nat.one_pos, Nat.le_add_left 1 2, hthree⟩
    rw [groupFrom_cons ha h, if_neg (by simp), hgroups]
    rfl
  · obtain ⟨a, tail, rfl⟩ := List.exists_cons_of_length_eq_add_one hk
    rw [List.length_cons, Nat.add_right_cancel_iff] at hk
    obtain ⟨b, rest, rfl⟩ := List.exists_cons_of_length_eq_add_one hk
    obtain ⟨ha, h⟩ := List.forall_mem_cons.mp h
    obtain ⟨hb, h'⟩ := List.forall_mem_cons.mp h
    rw [List.length_cons] at hk
    obtain ⟨groups, hgroups, hflatten, hthree⟩ := exists_groups k h' (by omega)
    refine ⟨[a, b], groups, ?_, by rw [hflatten]; rfl, Nat.two_pos, Nat.le_add_left 2 1, hthree⟩
    rw [groupFrom_cons ha h, if_neg (by simp), groupFrom_cons hb h', if_neg (by omega), hgroups]
    rfl
  · obtain ⟨a, tail, rfl⟩ := List.exists_cons_of_length_eq_add_one hk
    rw [List.length_cons, Nat.add_right_cancel_iff] at hk
    obtain ⟨b, tail, rfl⟩ := List.exists_cons_of_length_eq_add_one hk
    rw [List.length_cons, Nat.add_right_cancel_iff] at hk
    obtain ⟨c, rest, rfl⟩ := List.exists_cons_of_length_eq_add_one hk
    obtain ⟨ha, h⟩ := List.forall_mem_cons.mp h
    obtain ⟨hb, h'⟩ := List.forall_mem_cons.mp h
    obtain ⟨hc, h''⟩ := List.forall_mem_cons.mp h'
    rw [List.length_cons] at hk
    obtain ⟨groups, hgroups, hflatten, hthree⟩ := exists_groups k h'' (by omega)
    refine ⟨[a, b, c], groups, ?_, by rw [hflatten]; rfl, Nat.succ_pos 2, Nat.le_refl 3, hthree⟩
    rw [groupFrom_cons ha h, if_neg (by simp), groupFrom_cons hb h', if_neg (by rw [List.length_cons]; omega),
      groupFrom_cons hc h'', if_neg (by omega), hgroups]
    rfl

theorem comma_ne_of_isDigit {u : UInt16} (h : isDigit u = true) : u ≠ comma := by
  rintro rfl
  exact absurd h (by decide)

theorem dot_ne_of_isDigit {u : UInt16} (h : isDigit u = true) : u ≠ dot := by
  rintro rfl
  exact absurd h (by decide)

/-- Digits have no marks to leave out. -/
theorem withoutCommas_of_digits {s : JsString} (h : ∀ u ∈ s, isDigit u = true) : withoutCommas s = s :=
  List.filter_eq_self.mpr fun u hu => decide_eq_true (comma_ne_of_isDigit (h u hu))

/-- The marks between groups are left out, and the groups stay. -/
theorem withoutCommas_groups {groups : List JsString} (h : ∀ g ∈ groups, g.length = 3 ∧ ∀ u ∈ g, isDigit u = true) :
    withoutCommas (groups.flatMap fun g => comma :: g) = groups.flatten := by
  induction groups with
  | nil => rfl
  | cons g groups ih =>
    obtain ⟨hg, hgroups⟩ := List.forall_mem_cons.mp h
    rw [List.flatMap_cons, List.flatten_cons, withoutCommas, List.filter_append, List.filter_cons_of_neg (by decide)]
    exact congrArg₂ (· ++ ·) (withoutCommas_of_digits hg.2) (ih hgroups)

/-- Digits in groups are the digits. -/
theorem withoutCommas_groupThousands {s : JsString} (h : ∀ u ∈ s, isDigit u = true) : withoutCommas (groupThousands s) = s := by
  by_cases hne : s = []
  · rw [hne]
    rfl
  · obtain ⟨first, groups, hgroup, hflatten, -, -, hthree⟩ := exists_grouped h hne
    have hfirst : ∀ u ∈ first, isDigit u = true := fun u hu => h u (by rw [← hflatten]; exact List.mem_append_left _ hu)
    rw [hgroup, withoutCommas, List.filter_append, ← hflatten]
    exact congrArg₂ (· ++ ·) (withoutCommas_of_digits hfirst) (withoutCommas_groups hthree)

/-- The groups that are formed are of three digits, behind the first one. -/
theorem inThrees_groupThousands {s : JsString} (h : ∀ u ∈ s, isDigit u = true) (hne : s ≠ []) : InThrees (groupThousands s) := by
  obtain ⟨first, groups, hgroup, hflatten, hpos, hle, hthree⟩ := exists_grouped h hne
  exact ⟨first, groups, hgroup, hpos, hle, fun u hu => h u (by rw [← hflatten]; exact List.mem_append_left _ hu), hthree⟩

/-- Digits and commas are no dots and no minus signs. -/
theorem mem_groupThousands {s : JsString} (h : ∀ u ∈ s, isDigit u = true) : ∀ u ∈ groupThousands s, isDigit u = true ∨ u = comma := by
  intro u hu
  by_cases hcomma : u = comma
  · exact Or.inr hcomma
  · have hmem : u ∈ withoutCommas (groupThousands s) := List.mem_filter.mpr ⟨hu, decide_eq_true hcomma⟩
    rw [withoutCommas_groupThousands h] at hmem
    exact Or.inl (h u hmem)

/-! ## Plain decimals -/

theorem fractionText_nil : fractionText [] = [] := rfl

/-- A fraction that is not empty stands behind a point. -/
theorem fractionText_of_ne {fraction : JsString} (h : fraction ≠ []) : fractionText fraction = dot :: fraction := if_neg h

/-- A fraction, with or without its dot, is no commas. -/
theorem withoutCommas_fractionText {fraction : JsString} (h : ∀ u ∈ fraction, isDigit u = true) :
    withoutCommas (fractionText fraction) = fractionText fraction := by
  by_cases hne : fraction = []
  · rw [hne]
    rfl
  · rw [fractionText_of_ne hne, withoutCommas, List.filter_cons_of_pos (by decide)]
    exact congrArg (dot :: ·) (withoutCommas_of_digits h)

theorem takeWhile_fractionText (fraction : JsString) : (fractionText fraction).takeWhile isDigit = [] := by
  by_cases hne : fraction = []
  · rw [hne]
    rfl
  · rw [fractionText_of_ne hne, List.takeWhile_cons_of_neg (by decide)]

namespace IsPlain

variable {s int fraction : JsString}

/-- The digits in front of a plain decimal are its integer. -/
theorem takeWhile_eq (h : IsPlain s int fraction) : s.takeWhile isDigit = int := by
  rw [h.eq, List.takeWhile_append_of_pos h.intDigits, takeWhile_fractionText, List.append_nil]

/-- What stands behind them is its fraction. -/
theorem dropWhile_eq (h : IsPlain s int fraction) : s.dropWhile isDigit = fractionText fraction := by
  have happend := s.takeWhile_append_dropWhile (p := isDigit)
  rw [h.takeWhile_eq, h.eq] at happend
  rw [h.eq]
  exact List.append_cancel_left happend

end IsPlain

/-- Zeros at the end of a fraction do not change the value. -/
theorem valueOf_trimZeros (int fraction : JsString) : valueOf int (trimZeros fraction) = valueOf int fraction := by
  rw [valueOf, valueOf, fraction_trimZeros]

/-- The last digits and the digits before them. -/
theorem numberOf_rdrop_rtake (d : Nat) {s : JsString} (h : d ≤ s.length) :
    numberOf s = numberOf (s.rdrop d) * 10 ^ d + numberOf (s.rtake d) := by
  have hlength : (s.drop (s.length - d)).length = d := by
    rw [List.length_drop]
    omega
  conv_lhs => rw [← s.take_append_drop (s.length - d), numberOf_append, hlength]
  rfl

/-- A number cut in front of so many digits has the value of the number over that power of ten. -/
theorem valueOf_rdrop_rtake (d : Nat) {s : JsString} (h : d ≤ s.length) :
    valueOf (s.rdrop d) (s.rtake d) = numberOf s / 10 ^ d := by
  have hlength : (s.rtake d).length = d := by
    rw [List.rtake, List.length_drop]
    omega
  rw [valueOf, hlength, numberOf_rdrop_rtake d h, Nat.cast_add, Nat.cast_mul, Nat.cast_pow, Nat.cast_ofNat, add_div,
    mul_div_cancel_right₀ _ (by positivity)]

/-- A digit string is cut before its last digits, with the zeros at the end trimmed. -/
theorem isPlain_rdrop_rtake {d : Nat} {s : JsString} (hs : ∀ u ∈ s, isDigit u = true) (h : d < s.length) :
    IsPlain (s.rdrop d ++ fractionText (trimZeros (s.rtake d))) (s.rdrop d) (trimZeros (s.rtake d)) where
  ne_nil := by
    rw [List.rdrop]
    exact fun hnil => absurd (congrArg List.length hnil) (by rw [List.length_take, List.length_nil]; omega)
  intDigits := fun u hu => hs u (List.mem_of_mem_take hu)
  fractionDigits := isDigit_trimZeros fun u hu => hs u (List.mem_of_mem_drop hu)
  eq := rfl

end DecimalText

end Soroscan

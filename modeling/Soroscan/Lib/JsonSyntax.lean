import Soroscan.Lib.JsonRoundTrip

/-!
# JSON as it is written

The syntax of a JSON text without spaces: the members of an object in the order they are written, repeated names as often as they
stand, and string literals by their runes, so that an escaped replacement character and a written one differ. A text has only one
syntax tree (`print_injective`), and the tree of a text at the front of a longer one is determined with its end
(`print_append_inj`).
-/

namespace Soroscan

/-- The syntax of a JSON value. -/
inductive JsonSyntax where
  | null
  | bool (b : Bool)
  | int (i : Int)
  | str (runes : List (Option Char))
  | arr (items : List JsonSyntax)
  | obj (members : List (List (Option Char) × JsonSyntax))
  deriving Repr

namespace JsonSyntax

open Json (quoteRunes escapeRune readRune NumberEnd)

mutual

/-- The text of a syntax tree. -/
def print : JsonSyntax → Text
  | .null => ['n', 'u', 'l', 'l']
  | .bool true => ['t', 'r', 'u', 'e']
  | .bool false => ['f', 'a', 'l', 's', 'e']
  | .int i => intDecimal i
  | .str rs => quoteRunes rs
  | .arr [] => ['[', ']']
  | .arr (v :: vs) => '[' :: (print v ++ printItems vs)
  | .obj [] => ['{', '}']
  | .obj ((k, v) :: ms) => '{' :: (quoteRunes k ++ ':' :: (print v ++ printMembers ms))

/-- The text of the items after the first, and the end of their array. -/
def printItems : List JsonSyntax → Text
  | [] => [']']
  | v :: vs => ',' :: (print v ++ printItems vs)

/-- The text of the members after the first, and the end of their object. -/
def printMembers : List (List (Option Char) × JsonSyntax) → Text
  | [] => ['}']
  | (k, v) :: ms => ',' :: (quoteRunes k ++ ':' :: (print v ++ printMembers ms))

end

/-! ## Literals and numbers -/

/-- A rune is determined by its escape. -/
theorem escapeRune_append_inj {o o' : Option Char} {t t' : Text} (h : escapeRune o ++ t = escapeRune o' ++ t') :
    o = o' ∧ t = t' := by
  have hread := Json.readRune_escapeRune o t
  rw [h, Json.readRune_escapeRune o' t', Option.some.injEq, Prod.mk.injEq, Option.some.injEq] at hread
  obtain ⟨hc, rfl⟩ := hread
  refine ⟨?_, rfl⟩
  have hesc : escapeRune o = escapeRune o' := List.append_cancel_right h
  cases o <;> cases o'
  · rfl
  · rw [Option.getD_none, Option.getD_some] at hc
    subst hc
    exact absurd hesc (by decide)
  · rw [Option.getD_none, Option.getD_some] at hc
    subst hc
    exact absurd hesc (by decide)
  · rw [Option.getD_some, Option.getD_some] at hc
    rw [hc]

/-- The runes of a literal are determined by the text they begin, and so is what follows the literal. -/
theorem escapeRunes_append_inj {rs rs' : List (Option Char)} {t t' : Text}
    (h : rs.flatMap escapeRune ++ '"' :: t = rs'.flatMap escapeRune ++ '"' :: t') : rs = rs' ∧ t = t' := by
  have hend : ∀ (o : Option Char) (u v : Text), '"' :: u ≠ escapeRune o ++ v := by
    intro o u v heq
    have hread := Json.readRune_escapeRune o v
    rw [← heq] at hread
    simp [readRune] at hread
  induction rs generalizing rs' with
  | nil =>
    cases rs' with
    | nil => exact ⟨rfl, (List.cons.inj h).2⟩
    | cons o os =>
      rw [List.flatMap_cons, List.append_assoc] at h
      exact absurd h (hend o _ _)
  | cons o os ih =>
    cases rs' with
    | nil =>
      rw [List.flatMap_cons, List.append_assoc] at h
      exact absurd h.symm (hend o _ _)
    | cons o' os' =>
      rw [List.flatMap_cons, List.flatMap_cons, List.append_assoc, List.append_assoc] at h
      obtain ⟨rfl, hrest⟩ := escapeRune_append_inj h
      obtain ⟨rfl, ht⟩ := ih hrest
      exact ⟨rfl, ht⟩

theorem quoteRunes_append_inj {rs rs' : List (Option Char)} {t t' : Text} (h : quoteRunes rs ++ t = quoteRunes rs' ++ t') :
    rs = rs' ∧ t = t' := by
  rw [Json.quoteRunes_append, Json.quoteRunes_append] at h
  exact escapeRunes_append_inj (List.cons.inj h).2

/-- A number is determined by the text it begins, as long as it ends there. -/
theorem intDecimal_append_inj {i j : Int} {t t' : Text} (ht : NumberEnd t) (ht' : NumberEnd t')
    (h : intDecimal i ++ t = intDecimal j ++ t') : i = j ∧ t = t' := by
  have hread := Json.readNumber_append (Json.readNumber_intDecimal i) ht
  rw [h, Json.readNumber_append (Json.readNumber_intDecimal j) ht', Option.some.injEq, Prod.mk.injEq] at hread
  exact ⟨(intDecimal_injective hread.1).symm, hread.2.symm⟩

/-! ## One text, one tree -/

/-- The kinds of value, as the first character of a text tells them apart. -/
inductive Kind where
  | null | bool | int | str | arr | obj
  deriving DecidableEq

/-- The kind of a value. -/
def kind : JsonSyntax → Kind
  | .null => .null
  | .bool _ => .bool
  | .int _ => .int
  | .str _ => .str
  | .arr _ => .arr
  | .obj _ => .obj

/-- The kind of value a character begins. -/
def kindOf (c : Char) : Kind :=
  if c = 'n' then .null else if c = 't' ∨ c = 'f' then .bool else if c = '"' then .str else if c = '[' then .arr
  else if c = '{' then .obj else .int

theorem kindOf_digit {c : Char} (h : c = '-' ∨ c.isDigit = true) : kindOf c = .int := by
  have hne : ∀ d : Char, ¬(d = '-' ∨ d.isDigit = true) → c ≠ d := fun d hd => Json.ne_of_isDigit h hd
  rw [kindOf, if_neg (hne _ (by decide)), if_neg (not_or.mpr ⟨hne _ (by decide), hne _ (by decide)⟩),
    if_neg (hne _ (by decide)), if_neg (hne _ (by decide)), if_neg (hne _ (by decide))]

/-- The text of a value begins with a character of its kind, which is no closing bracket. -/
theorem print_head (w : JsonSyntax) : ∃ c t, w.print = c :: t ∧ kindOf c = w.kind ∧ c ≠ ']' ∧ c ≠ '}' := by
  match w with
  | .null => exact ⟨'n', _, by rw [print], rfl, by decide, by decide⟩
  | .bool true => exact ⟨'t', _, by rw [print], rfl, by decide, by decide⟩
  | .bool false => exact ⟨'f', _, by rw [print], rfl, by decide, by decide⟩
  | .int i =>
    obtain ⟨c, t, ht, hc⟩ := Json.readNumber_head (Json.readNumber_intDecimal i)
    exact ⟨c, t, by rw [print, ht], kindOf_digit hc, Json.ne_of_isDigit hc (by decide), Json.ne_of_isDigit hc (by decide)⟩
  | .str rs => exact ⟨'"', _, by rw [print]; rfl, rfl, by decide, by decide⟩
  | .arr [] => exact ⟨'[', _, by rw [print], rfl, by decide, by decide⟩
  | .arr (v :: vs) => exact ⟨'[', _, by rw [print], rfl, by decide, by decide⟩
  | .obj [] => exact ⟨'{', _, by rw [print], rfl, by decide, by decide⟩
  | .obj ((k, v) :: ms) => exact ⟨'{', _, by rw [print], rfl, by decide, by decide⟩

/-- Texts that agree begin values of one kind. -/
theorem kind_eq {w w' : JsonSyntax} {t t' : Text} (h : w.print ++ t = w'.print ++ t') : w.kind = w'.kind := by
  obtain ⟨c, u, hu, hc, -⟩ := print_head w
  obtain ⟨c', u', hu', hc', -⟩ := print_head w'
  rw [hu, hu'] at h
  rw [← hc, ← hc', (List.cons.inj h).1]

/-- No value begins with the bracket that closes an array. -/
theorem print_append_ne (w : JsonSyntax) (t u : Text) : w.print ++ t ≠ ']' :: u := by
  obtain ⟨c, v, hv, -, hne, -⟩ := print_head w
  rw [hv]
  intro h
  exact hne (List.cons.inj h).1

theorem numberEnd_printItems (vs : List JsonSyntax) (t : Text) : NumberEnd (printItems vs ++ t) := by
  cases vs with
  | nil => exact Json.numberEnd_cons (by decide) (by decide) (by decide) (by decide) _
  | cons v vs =>
    rw [printItems]
    exact Json.numberEnd_cons (by decide) (by decide) (by decide) (by decide) _

theorem numberEnd_printMembers (ms : List (List (Option Char) × JsonSyntax)) (t : Text) :
    NumberEnd (printMembers ms ++ t) := by
  cases ms with
  | nil => exact Json.numberEnd_cons (by decide) (by decide) (by decide) (by decide) _
  | cons m ms =>
    rw [printMembers]
    exact Json.numberEnd_cons (by decide) (by decide) (by decide) (by decide) _

mutual

/-- A value is determined by the text it begins, and so is what follows it, unless a number goes on. -/
theorem print_append_inj : ∀ (w w' : JsonSyntax) (t t' : Text), NumberEnd t → NumberEnd t' →
    w.print ++ t = w'.print ++ t' → w = w' ∧ t = t'
  | .null, w', t, t', _, _, h => by
    have hk := kind_eq h
    cases w' <;> cases hk
    exact ⟨rfl, List.append_cancel_left h⟩
  | .bool b, w', t, t', _, _, h => by
    have hk := kind_eq h
    cases w' <;> cases hk
    rename_i b'
    cases b <;> cases b'
    · exact ⟨rfl, List.append_cancel_left h⟩
    · simp [print] at h
    · simp [print] at h
    · exact ⟨rfl, List.append_cancel_left h⟩
  | .int i, w', t, t', ht, ht', h => by
    have hk := kind_eq h
    cases w' <;> cases hk
    rw [print, print] at h
    obtain ⟨rfl, hrest⟩ := intDecimal_append_inj ht ht' h
    exact ⟨rfl, hrest⟩
  | .str rs, w', t, t', _, _, h => by
    have hk := kind_eq h
    cases w' <;> cases hk
    rw [print, print] at h
    obtain ⟨rfl, hrest⟩ := quoteRunes_append_inj h
    exact ⟨rfl, hrest⟩
  | .arr [], w', t, t', _, _, h => by
    have hk := kind_eq h
    cases w' <;> cases hk
    rename_i vs'
    cases vs' with
    | nil => exact ⟨rfl, List.append_cancel_left h⟩
    | cons v' vs' =>
      simp only [print, List.cons_append, List.append_assoc, List.cons.injEq, true_and] at h
      exact absurd h.symm (print_append_ne v' _ _)
  | .arr (v :: vs), w', t, t', _, _, h => by
    have hk := kind_eq h
    cases w' <;> cases hk
    rename_i vs'
    cases vs' with
    | nil =>
      simp only [print, List.cons_append, List.append_assoc, List.cons.injEq, true_and] at h
      exact absurd h (print_append_ne v _ _)
    | cons v' vs' =>
      simp only [print, List.cons_append, List.append_assoc, List.cons.injEq, true_and] at h
      obtain ⟨rfl, hitems⟩ := print_append_inj v v' _ _ (numberEnd_printItems vs t) (numberEnd_printItems vs' t') h
      obtain ⟨rfl, hrest⟩ := printItems_append_inj vs vs' t t' hitems
      exact ⟨rfl, hrest⟩
  | .obj [], w', t, t', _, _, h => by
    have hk := kind_eq h
    cases w' <;> cases hk
    rename_i ms'
    cases ms' with
    | nil => exact ⟨rfl, List.append_cancel_left h⟩
    | cons m' ms' => simp [print, quoteRunes] at h
  | .obj ((k, v) :: ms), w', t, t', _, _, h => by
    have hk := kind_eq h
    cases w' <;> cases hk
    rename_i ms'
    cases ms' with
    | nil => simp [print, quoteRunes] at h
    | cons m' ms' =>
      obtain ⟨k', v'⟩ := m'
      simp only [print, List.cons_append, List.append_assoc, List.cons.injEq, true_and] at h
      obtain ⟨rfl, hcolon⟩ := quoteRunes_append_inj h
      obtain ⟨rfl, hmembers⟩ := print_append_inj v v' _ _ (numberEnd_printMembers ms t) (numberEnd_printMembers ms' t')
        (List.cons.inj hcolon).2
      obtain ⟨rfl, hrest⟩ := printMembers_append_inj ms ms' t t' hmembers
      exact ⟨rfl, hrest⟩

theorem printItems_append_inj : ∀ (vs vs' : List JsonSyntax) (t t' : Text),
    printItems vs ++ t = printItems vs' ++ t' → vs = vs' ∧ t = t'
  | [], [], _, _, h => ⟨rfl, (List.cons.inj h).2⟩
  | [], _ :: _, _, _, h => by simp [printItems] at h
  | _ :: _, [], _, _, h => by simp [printItems] at h
  | v :: vs, v' :: vs', t, t', h => by
    simp only [printItems, List.cons_append, List.append_assoc, List.cons.injEq, true_and] at h
    obtain ⟨rfl, hitems⟩ := print_append_inj v v' _ _ (numberEnd_printItems vs t) (numberEnd_printItems vs' t') h
    obtain ⟨rfl, hrest⟩ := printItems_append_inj vs vs' t t' hitems
    exact ⟨rfl, hrest⟩

theorem printMembers_append_inj : ∀ (ms ms' : List (List (Option Char) × JsonSyntax)) (t t' : Text),
    printMembers ms ++ t = printMembers ms' ++ t' → ms = ms' ∧ t = t'
  | [], [], _, _, h => ⟨rfl, (List.cons.inj h).2⟩
  | [], _ :: _, _, _, h => by simp [printMembers] at h
  | _ :: _, [], _, _, h => by simp [printMembers] at h
  | (k, v) :: ms, (k', v') :: ms', t, t', h => by
    simp only [printMembers, List.cons_append, List.append_assoc, List.cons.injEq, true_and] at h
    obtain ⟨rfl, hcolon⟩ := quoteRunes_append_inj h
    obtain ⟨rfl, hmembers⟩ := print_append_inj v v' _ _ (numberEnd_printMembers ms t) (numberEnd_printMembers ms' t')
      (List.cons.inj hcolon).2
    obtain ⟨rfl, hrest⟩ := printMembers_append_inj ms ms' t t' hmembers
    exact ⟨rfl, hrest⟩

end

/-- A text has one syntax tree. -/
theorem print_injective : Function.Injective print := by
  intro w w' h
  have hend : NumberEnd [] := by
    intro c hc
    cases hc
  exact (print_append_inj w w' [] [] hend hend (by rw [h])).1

end JsonSyntax

end Soroscan

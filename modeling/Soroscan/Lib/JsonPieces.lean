import Soroscan.Lib.JsonRoundTrip

/-!
# JSON put together from texts

Objects and arrays whose members and items are texts already, as an encoder writes a record with a raw message in it: if each piece
stands for a value, the whole stands for the object or the array of them. A raw message is compacted before it is put in; a text that
`marshal` wrote is left as it is.
-/

namespace Soroscan

namespace Json

/-! ## Pieces -/

/-- The members after the first, and the end of their object. -/
def membersText : List (Text × Text) → Text
  | [] => ['}']
  | (k, t) :: ms => ',' :: (quote k ++ ':' :: (t ++ membersText ms))

/-- An object of names and the texts of their values. -/
def objectText : List (Text × Text) → Text
  | [] => ['{', '}']
  | (k, t) :: ms => '{' :: (quote k ++ ':' :: (t ++ membersText ms))

/-- A name with the text of a value, and the name with the value. -/
def PieceOf (m : Text × Text) (v : Text × Json) : Prop := m.1 = v.1 ∧ Stands m.2 v.2

theorem standsMembers_membersText {ms : List (Text × Text)} {vs : List (Text × Json)} (h : List.Forall₂ PieceOf ms vs) :
    StandsMembers (membersText ms) vs := by
  induction h with
  | nil => exact standsMembers_nil
  | @cons m v ms vs hmv _ ih =>
    obtain ⟨k, t⟩ := m
    obtain ⟨k', v⟩ := v
    obtain ⟨rfl, hstands⟩ := hmv
    exact standsMembers_cons (standsName_quote k) hstands ih

/-- An object put together from texts is the object of their values. -/
theorem stands_objectText {ms : List (Text × Text)} {vs : List (Text × Json)} (h : List.Forall₂ PieceOf ms vs) :
    Stands (objectText ms) (.obj (objectOf vs)) := by
  cases h with
  | nil => exact stands_obj_nil
  | @cons m v ms vs hmv hrest =>
    obtain ⟨k, t⟩ := m
    obtain ⟨k', v⟩ := v
    obtain ⟨rfl, hstands⟩ := hmv
    exact stands_obj_cons (standsName_quote k) hstands (standsMembers_membersText hrest)

/-- The value an object has under a name. -/
def field (k : Text) : Json → Option Json
  | .obj members => (members.find? fun m => m.1 = k).map (·.2)
  | _ => none

/-- Among members of different names, the one of a name is found. -/
theorem find?_eq_some {ms : List (Text × Json)} (hnodup : (ms.map (·.1)).Nodup) {k : Text} {v : Json} (h : (k, v) ∈ ms) :
    (ms.find? fun m => m.1 = k) = some (k, v) := by
  induction ms with
  | nil => cases h
  | cons m ms ih =>
    rw [List.map_cons, List.nodup_cons] at hnodup
    rcases List.mem_cons.mp h with rfl | h
    · exact List.find?_cons_of_pos (decide_eq_true rfl)
    · have hne : m.1 ≠ k := by
        rintro rfl
        exact hnodup.1 (List.mem_map.mpr ⟨(m.1, v), h, rfl⟩)
      rw [List.find?_cons_of_neg (by simpa using hne), ih hnodup.2 h]

/-- An object has the values it was made from. -/
theorem field_objectOf {vs : List (Text × Json)} (hnodup : (vs.map (·.1)).Nodup) {k : Text} {v : Json} (h : (k, v) ∈ vs) :
    field k (.obj (objectOf vs)) = some v := by
  rw [field, find?_eq_some (objectOf_nodup vs) ((objectOf_perm_iff.mpr hnodup).mem_iff.mpr h), Option.map_some]

/-- An object has no value under a name it was made without. -/
theorem field_objectOf_none {vs : List (Text × Json)} {k : Text} (h : k ∉ vs.map (·.1)) : field k (.obj (objectOf vs)) = none := by
  rw [field, List.find?_eq_none.mpr, Option.map_none]
  intro m hm heq
  exact h (of_decide_eq_true heq ▸ List.mem_map_of_mem (mem_objectOf hm))

/-! ## Whole texts -/

/-- The value of a text that has nothing behind it. -/
def parseWhole (t : Text) : Option Json :=
  match parseValue (t.length + 1) t with
  | some (v, rest) => if skipSpace rest = [] then some v else none
  | none => none

/-- The text of a value, with spaces behind it or none, is read whole. -/
theorem Stands.parseWhole {t rest : Text} {v : Json} (h : Stands t v) (hspace : skipSpace rest = []) (hend : NumberEnd rest) :
    parseWhole (t ++ rest) = some v := by
  have hlength : t.length ≤ (t ++ rest).length + 1 := by
    rw [List.length_append]
    omega
  rw [Json.parseWhole, h.reads _ _ hlength hend]
  exact if_pos hspace

/-! ## Compaction -/

/-- Where a text is read: outside of a string, in one, or in one behind a backslash. -/
inductive Scan where
  | outside | inside | escaped

def isSpace (c : Char) : Bool := c = ' ' || c = '\t' || c = '\r' || c = '\n'

/-- The characters that are escaped in every text. -/
def escapeHtml (c : Char) : Text :=
  if c = '<' ∨ c = '>' ∨ c = '&' then ['\\', 'u', '0', '0', Nat.digitChar (c.toNat / 16), Nat.digitChar (c.toNat % 16)]
  else if c.toNat = 0x2028 ∨ c.toNat = 0x2029 then ['\\', 'u', '2', '0', '2', Nat.digitChar (c.toNat % 16)]
  else [c]

/-- A text without the spaces between its tokens. -/
def compactFrom : Scan → Text → Text
  | _, [] => []
  | .outside, c :: t =>
    if isSpace c then compactFrom .outside t else escapeHtml c ++ compactFrom (if c = '"' then .inside else .outside) t
  | .inside, c :: t =>
    escapeHtml c ++ compactFrom (if c = '\\' then .escaped else if c = '"' then .outside else .inside) t
  | .escaped, c :: t => escapeHtml c ++ compactFrom .inside t

/-- A character that stands for itself outside of strings. -/
def isBare (c : Char) : Bool := !isSpace c && !(c = '"') && escapeHtml c = [c]

theorem compactFrom_bare {c : Char} (h : isBare c = true) (t : Text) : compactFrom .outside (c :: t) = c :: compactFrom .outside t := by
  simp only [isBare, Bool.and_eq_true, Bool.not_eq_true', decide_eq_false_iff_not, decide_eq_true_eq] at h
  obtain ⟨⟨hspace, hquote⟩, hhtml⟩ := h
  rw [compactFrom, if_neg (by simp [hspace]), hhtml, if_neg hquote, List.singleton_append]

theorem compactFrom_bares {u : Text} (h : ∀ c ∈ u, isBare c = true) (t : Text) :
    compactFrom .outside (u ++ t) = u ++ compactFrom .outside t := by
  induction u with
  | nil => rfl
  | cons c u ih =>
    rw [List.cons_append, compactFrom_bare (h c List.mem_cons_self), ih fun c' hc' => h c' (List.mem_cons_of_mem _ hc'),
      List.cons_append]

/-- A character that neither ends a string nor is escaped in one. -/
def isInert (c : Char) : Bool := !(c = '"') && !(c = '\\') && escapeHtml c = [c]

theorem compactFrom_inert {c : Char} (h : isInert c = true) (t : Text) :
    compactFrom .inside (c :: t) = c :: compactFrom .inside t := by
  simp only [isInert, Bool.and_eq_true, Bool.not_eq_true', decide_eq_false_iff_not, decide_eq_true_eq] at h
  obtain ⟨⟨hquote, hback⟩, hhtml⟩ := h
  rw [compactFrom, hhtml, if_neg hback, if_neg hquote, List.singleton_append]

theorem compactFrom_inerts {u : Text} (h : ∀ c ∈ u, isInert c = true) (t : Text) :
    compactFrom .inside (u ++ t) = u ++ compactFrom .inside t := by
  induction u with
  | nil => rfl
  | cons c u ih =>
    rw [List.cons_append, compactFrom_inert (h c List.mem_cons_self), ih fun c' hc' => h c' (List.mem_cons_of_mem _ hc'),
      List.cons_append]

/-- A backslash and what it escapes stand for themselves. -/
theorem compactFrom_escape {c : Char} (h : escapeHtml c = [c]) (t : Text) :
    compactFrom .inside ('\\' :: c :: t) = '\\' :: c :: compactFrom .inside t := by
  rw [compactFrom, show escapeHtml '\\' = ['\\'] by decide, if_pos rfl, compactFrom, h]
  rfl

theorem isInert_digitChar {n : Nat} (h : n < 16) : isInert n.digitChar = true := by
  revert n
  decide

/-- A backslash, a character that needs no escape, and characters that need none. -/
theorem compactFrom_escapes {c : Char} {u : Text} (h : escapeHtml c = [c]) (hu : ∀ c' ∈ u, isInert c' = true) (t : Text) :
    compactFrom .inside ('\\' :: c :: u ++ t) = '\\' :: c :: u ++ compactFrom .inside t := by
  rw [List.cons_append, List.cons_append, compactFrom_escape h, compactFrom_inerts hu]
  rfl

/-- The escape of a character stands for itself in a string. -/
theorem compactFrom_escapeRune (o : Option Char) (t : Text) :
    compactFrom .inside (escapeRune o ++ t) = escapeRune o ++ compactFrom .inside t := by
  cases o with
  | none => exact compactFrom_escapes (by decide) (List.all_eq_true.mp (by decide)) t
  | some c =>
    simp only [escapeRune]
    split_ifs with hmark hb hf hn hr ht hlow hsep
    · refine compactFrom_escapes (u := []) ?_ (by simp) t
      rcases hmark with rfl | rfl <;> decide
    · exact compactFrom_escapes (by decide) (by simp) t
    · exact compactFrom_escapes (by decide) (by simp) t
    · exact compactFrom_escapes (by decide) (by simp) t
    · exact compactFrom_escapes (by decide) (by simp) t
    · exact compactFrom_escapes (by decide) (by simp) t
    · have hsmall : c.toNat < 256 := by
        rcases hlow with h | rfl | rfl | rfl
        · omega
        · decide
        · decide
        · decide
      refine compactFrom_escapes (by decide) ?_ t
      intro c' hc'
      simp only [List.mem_cons, List.not_mem_nil, or_false] at hc'
      rcases hc' with rfl | rfl | rfl | rfl
      · decide
      · decide
      · exact isInert_digitChar (by omega)
      · exact isInert_digitChar (by omega)
    · refine compactFrom_escapes (by decide) ?_ t
      intro c' hc'
      simp only [List.mem_cons, List.not_mem_nil, or_false] at hc'
      rcases hc' with rfl | rfl | rfl | rfl
      · decide
      · decide
      · decide
      · exact isInert_digitChar (by omega)
    · refine compactFrom_inerts (u := [c]) ?_ t
      intro c' hc'
      rw [List.mem_singleton.mp hc']
      have hhtml : escapeHtml c = [c] := by
        rw [escapeHtml, if_neg (by tauto), if_neg hsep]
      simp only [isInert, hhtml, Bool.and_eq_true, Bool.not_eq_true', decide_eq_false_iff_not, decide_true]
      tauto

/-- A string stands for itself. -/
theorem compactFrom_quoteRunes (rs : List (Option Char)) (t : Text) :
    compactFrom .outside (quoteRunes rs ++ t) = quoteRunes rs ++ compactFrom .outside t := by
  have hbody : ∀ u : Text, compactFrom .inside (rs.flatMap escapeRune ++ '"' :: u)
      = rs.flatMap escapeRune ++ '"' :: compactFrom .outside u := by
    intro u
    induction rs with
    | nil => exact rfl
    | cons o os ih => rw [List.flatMap_cons, List.append_assoc, compactFrom_escapeRune, ih, List.append_assoc]
  rw [quoteRunes_append, quoteRunes_append, compactFrom, if_neg (by decide), if_pos rfl, hbody]
  rfl

/-! ### Numbers -/

/-- A character of a number. -/
def isNumeric (c : Char) : Bool := c.isDigit || c = '-' || c = '+' || c = '.' || c = 'e' || c = 'E'

theorem isBare_of_isNumeric {c : Char} (h : isNumeric c = true) : isBare c = true := by
  simp only [isNumeric, Bool.or_eq_true, decide_eq_true_eq] at h
  rcases h with ((((hdigit | rfl) | rfl) | rfl) | rfl) | rfl
  · have hne : ∀ d : Char, d.isDigit = false → c ≠ d := by
      rintro d hd rfl
      rw [hdigit] at hd
      cases hd
    have hsmall : c.toNat < 0x2028 := by
      have hnine : '9'.toNat = 57 := rfl
      have hrange := Char.isDigit_iff_toNat.mp hdigit
      omega
    have hhtml : escapeHtml c = [c] := by
      rw [escapeHtml, if_neg (by simp [hne]), if_neg (by omega)]
    simp [isBare, isSpace, hhtml, hne]
  · decide
  · decide
  · decide
  · decide
  · decide

/-- What a part of a number is read as has only characters of numbers. -/
def ReadsNumeric (read : Text → Option (Text × Text)) : Prop := ∀ t u v, read t = some (u, v) → ∀ c ∈ u, isNumeric c = true

theorem readsNumeric_digits : ReadsNumeric readDigits := by
  intro t u v h c hc
  rw [readDigits] at h
  split_ifs at h with hempty
  obtain ⟨rfl, -⟩ := Prod.mk.inj (Option.some.inj h)
  simp [isNumeric, List.mem_takeWhile_imp hc]

theorem readsNumeric_sign : ReadsNumeric readSign := by
  intro t u v h c hc
  unfold readSign at h
  split at h <;> obtain ⟨rfl, -⟩ := Prod.mk.inj (Option.some.inj h)
  · rw [List.mem_singleton.mp hc]
    decide
  · cases hc

theorem readsNumeric_intPart : ReadsNumeric readIntPart := by
  intro t u v h c hc
  unfold readIntPart at h
  split at h
  · obtain ⟨rfl, -⟩ := Prod.mk.inj (Option.some.inj h)
    rw [List.mem_singleton.mp hc]
    decide
  · exact readsNumeric_digits _ _ _ h c hc

theorem readsNumeric_fraction : ReadsNumeric readFraction := by
  intro t u v h c hc
  unfold readFraction at h
  split at h
  · obtain ⟨⟨ds, w⟩, hds, heq⟩ := Option.map_eq_some_iff.mp h
    obtain ⟨rfl, -⟩ := Prod.mk.inj heq
    rcases List.mem_cons.mp hc with rfl | hc
    · decide
    · exact readsNumeric_digits _ _ _ hds c hc
  · obtain ⟨rfl, -⟩ := Prod.mk.inj (Option.some.inj h)
    cases hc

theorem readsNumeric_exponentSign : ReadsNumeric readExponentSign := by
  intro t u v h c hc
  unfold readExponentSign at h
  split at h
  · obtain ⟨rfl, -⟩ := Prod.mk.inj (Option.some.inj h)
    rw [List.mem_singleton.mp hc]
    decide
  · exact readsNumeric_sign _ _ _ h c hc

theorem readsNumeric_exponent : ReadsNumeric readExponent := by
  intro t u v h c hc
  unfold readExponent at h
  split at h
  · rename_i e t
    split_ifs at h with he
    · obtain ⟨⟨sg, w⟩, hsg, h⟩ := Option.bind_eq_some_iff.mp h
      obtain ⟨⟨ds, x⟩, hds, heq⟩ := Option.map_eq_some_iff.mp h
      obtain ⟨rfl, -⟩ := Prod.mk.inj heq
      rcases List.mem_cons.mp hc with rfl | hc
      · rcases he with rfl | rfl <;> decide
      · rcases List.mem_append.mp hc with hc | hc
        · exact readsNumeric_exponentSign _ _ _ hsg c hc
        · exact readsNumeric_digits _ _ _ hds c hc
    · obtain ⟨rfl, -⟩ := Prod.mk.inj (Option.some.inj h)
      cases hc
  · obtain ⟨rfl, -⟩ := Prod.mk.inj (Option.some.inj h)
    cases hc

/-- A number has only characters of numbers. -/
theorem readsNumeric_number : ReadsNumeric readNumber := by
  intro t u v h c hc
  rw [readNumber] at h
  obtain ⟨⟨sg, t₁⟩, hsg, h⟩ := Option.bind_eq_some_iff.mp h
  obtain ⟨⟨ip, t₂⟩, hip, h⟩ := Option.bind_eq_some_iff.mp h
  obtain ⟨⟨fr, t₃⟩, hfr, h⟩ := Option.bind_eq_some_iff.mp h
  obtain ⟨⟨ex, t₄⟩, hex, heq⟩ := Option.map_eq_some_iff.mp h
  obtain ⟨rfl, -⟩ := Prod.mk.inj heq
  simp only [List.mem_append] at hc
  rcases hc with ((hc | hc) | hc) | hc
  · exact readsNumeric_sign _ _ _ hsg c hc
  · exact readsNumeric_intPart _ _ _ hip c hc
  · exact readsNumeric_fraction _ _ _ hfr c hc
  · exact readsNumeric_exponent _ _ _ hex c hc

/-! ### Values -/

mutual

/-- The text of a value stands for itself. -/
theorem compactFrom_marshal : ∀ (v : Json), v.Ok → ∀ t, compactFrom .outside (marshal v ++ t) = marshal v ++ compactFrom .outside t
  | .null, _, t => compactFrom_bares (by rw [marshal]; exact List.all_eq_true.mp (by decide)) t
  | .bool true, _, t => compactFrom_bares (by rw [marshal]; exact List.all_eq_true.mp (by decide)) t
  | .bool false, _, t => compactFrom_bares (by rw [marshal]; exact List.all_eq_true.mp (by decide)) t
  | .num token, h, t => by
    rw [Ok] at h
    rw [marshal]
    exact compactFrom_bares (fun c hc => isBare_of_isNumeric (readsNumeric_number _ _ _ h c hc)) t
  | .str s, _, t => by
    rw [marshal]
    exact compactFrom_quoteRunes _ t
  | .arr [], _, t => compactFrom_bares (by rw [marshal]; exact List.all_eq_true.mp (by decide)) t
  | .arr (v :: vs), h, t => by
    rw [Ok, OkItems] at h
    rw [marshal, List.cons_append, compactFrom_bare (by decide), List.append_assoc, compactFrom_marshal v h.1,
      compactFrom_marshalItems vs h.2, List.cons_append, List.append_assoc]
  | .obj [], _, t => compactFrom_bares (by rw [marshal]; exact List.all_eq_true.mp (by decide)) t
  | .obj ((k, v) :: ms), h, t => by
    rw [Ok, OkMembers] at h
    rw [marshal, List.cons_append, compactFrom_bare (by decide), List.append_assoc, quote, compactFrom_quoteRunes, List.cons_append,
      compactFrom_bare (by decide), List.append_assoc, compactFrom_marshal v h.2.1, compactFrom_marshalMembers ms h.2.2]
    simp only [List.cons_append, List.append_assoc]

theorem compactFrom_marshalItems : ∀ (vs : List Json), OkItems vs →
    ∀ t, compactFrom .outside (marshalItems vs ++ t) = marshalItems vs ++ compactFrom .outside t
  | [], _, t => compactFrom_bares (by rw [marshalItems]; exact List.all_eq_true.mp (by decide)) t
  | v :: vs, h, t => by
    rw [OkItems] at h
    rw [marshalItems, List.cons_append, compactFrom_bare (by decide), List.append_assoc, compactFrom_marshal v h.1,
      compactFrom_marshalItems vs h.2, List.cons_append, List.append_assoc]

theorem compactFrom_marshalMembers : ∀ (ms : List (Text × Json)), OkMembers ms →
    ∀ t, compactFrom .outside (marshalMembers ms ++ t) = marshalMembers ms ++ compactFrom .outside t
  | [], _, t => compactFrom_bares (by rw [marshalMembers]; exact List.all_eq_true.mp (by decide)) t
  | (k, v) :: ms, h, t => by
    rw [OkMembers] at h
    rw [marshalMembers, List.cons_append, compactFrom_bare (by decide), List.append_assoc, quote, compactFrom_quoteRunes,
      List.cons_append, compactFrom_bare (by decide), List.append_assoc, compactFrom_marshal v h.1, compactFrom_marshalMembers ms h.2]
    simp only [List.cons_append, List.append_assoc]

end

end Json

end Soroscan

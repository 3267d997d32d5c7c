import Soroscan.Toml
import Soroscan.Lib.Sections

/-!
# The section of an asset

What a stellar.toml says about an asset, section by section: the lines are cut where a trimmed line begins with a bracket, a
currency section has the fields it assigned last, and of the sections that match the first with an image counts, or else the
first. The line parser finds the same in one pass.
-/

namespace Soroscan

namespace Icons

/-! ## The sections of a text -/

/-- A line that begins a section. -/
def beginsSection (rawLine : Bytes) : Bool := decide ((trimSpace rawLine).head? = some 0x5B)

/-- What a line of a currency section assigns: the key in lower case, and the value without its quotes. -/
def assignmentOf (lower : Char → Char) (rawLine : Bytes) : Option (Bytes × Bytes) :=
  let line := trimSpace rawLine
  if line = [] ∨ line.head? = some 0x23 then none
  else (cutAt 0x3D line).map fun kv => (toLower lower (trimSpace kv.1), unquote kv.2)

/-- The last value that was assigned to a key. -/
def lastAssigned (key : Bytes) (assignments : List (Bytes × Bytes)) : Option Bytes :=
  ((assignments.filter fun a => decide (a.1 = key)).getLast?).map Prod.snd

/-- A section: the line it begins with, and the lines in it. -/
abbrev TomlSection : Type := Bytes × List Bytes

namespace TomlSection

variable (lower : Char → Char) (s : TomlSection)

/-- The header of a currency section, spaces aside. -/
def isCurrency : Bool := decide ((trimSpace s.1).filter (· ≠ 0x20) = utf8 "[[CURRENCIES]]")

def field (key : Bytes) : Option Bytes := lastAssigned key (s.2.filterMap (assignmentOf lower))

/-- A currency section of the asset. -/
def matchesAsset (code issuer : Bytes) : Bool :=
  s.isCurrency && decide (s.field lower (utf8 "code") = some code) && decide (s.field lower (utf8 "issuer") = some issuer)

/-- What the section says. -/
def entry : TomlEntry :=
  ⟨(s.field lower (utf8 "name")).getD [], (s.field lower (utf8 "desc")).getD [], (s.field lower (utf8 "image")).getD []⟩

end TomlSection

/-- The first entry with an image, or else the first one, or else nothing. -/
def bestEntry (entries : List TomlEntry) : TomlEntry :=
  ((entries.find? fun e => decide (e.image ≠ [])).or entries.head?).getD TomlEntry.empty

section

variable (lower : Char → Char) (code issuer : Bytes)

/-- The entries of the sections that match. -/
def matchingEntries (all : List TomlSection) : List TomlEntry :=
  (all.filter fun s => s.matchesAsset lower code issuer).map fun s => s.entry lower

/-- What the sections of some lines say about an asset. -/
def sectionMeta (lines : List Bytes) : TomlEntry := bestEntry (matchingEntries lower code issuer (sections beginsSection lines))

/-! ## One section -/

namespace TomlReader

/-- An assignment, its key and value as they are compared. -/
def set (p : TomlReader) (a : Bytes × Bytes) : TomlReader :=
  if a.1 = utf8 "code" then { p with codeMatch := decide (a.2 = code) }
  else if a.1 = utf8 "issuer" then { p with issuerMatch := decide (a.2 = issuer) }
  else if a.1 = utf8 "name" then { p with current := { p.current with name := a.2 } }
  else if a.1 = utf8 "desc" then { p with current := { p.current with desc := a.2 } }
  else if a.1 = utf8 "image" then { p with current := { p.current with image := a.2 } }
  else p

/-- A line that does not begin a section. -/
def takeLine (p : TomlReader) (rawLine : Bytes) : TomlReader :=
  if p.inCurrency then
    match assignmentOf lower rawLine with
    | some a => p.set code issuer a
    | none => p
  else p

variable {lower code issuer}

theorem walkLines_begins (p : TomlReader) {rawLine : Bytes} (h : beginsSection rawLine = true) (rest : List Bytes) :
    walkLines lower code issuer p (rawLine :: rest) =
      if p.consider.2 then p.consider.1.best
      else walkLines lower code issuer (p.consider.1.beginSection (trimSpace rawLine)) rest := by
  rw [walkLines, if_pos (of_decide_eq_true h)]

theorem assign_eq_set (p : TomlReader) (key value : Bytes) :
    assign lower code issuer p key value = p.set code issuer (toLower lower (trimSpace key), unquote value) := by
  simp only [assign, TomlReader.set]

theorem walkLines_takeLine (p : TomlReader) {rawLine : Bytes} (h : beginsSection rawLine = false) (rest : List Bytes) :
    walkLines lower code issuer p (rawLine :: rest) =
      walkLines lower code issuer (p.takeLine lower code issuer rawLine) rest := by
  rw [walkLines, if_neg (of_decide_eq_false h), takeLine, assignmentOf]
  cases hcurrency : p.inCurrency with
  | false => rfl
  | true =>
    by_cases hskip : trimSpace rawLine = [] ∨ (trimSpace rawLine).head? = some 0x23
    · rw [if_pos (by simpa using hskip), if_pos hskip]
      rfl
    · rw [if_neg (by simpa using hskip), if_neg hskip]
      cases hcut : cutAt 0x3D (trimSpace rawLine) with
      | none => rfl
      | some kv =>
        simp only [Option.map_some, if_true]
        rw [assign_eq_set]

theorem lastAssigned_append (key : Bytes) (assignments : List (Bytes × Bytes)) (a : Bytes × Bytes) :
    lastAssigned key (assignments ++ [a]) = if a.1 = key then some a.2 else lastAssigned key assignments := by
  unfold lastAssigned
  rw [List.filter_append, List.filter_singleton]
  split_ifs with h
  · rw [decide_eq_true h, cond_true, List.getLast?_concat]
    rfl
  · rw [decide_eq_false h, cond_false, List.append_nil]

/-- The parser after some assignments of a section it has begun. -/
structure Assigned (code issuer : Bytes) (p : TomlReader) (assignments : List (Bytes × Bytes)) (q : TomlReader) : Prop where
  inCurrency : q.inCurrency = p.inCurrency
  best : q.best = p.best
  haveBest : q.haveBest = p.haveBest
  codeMatch : q.codeMatch = decide (lastAssigned (utf8 "code") assignments = some code)
  issuerMatch : q.issuerMatch = decide (lastAssigned (utf8 "issuer") assignments = some issuer)
  name : q.current.name = (lastAssigned (utf8 "name") assignments).getD []
  desc : q.current.desc = (lastAssigned (utf8 "desc") assignments).getD []
  image : q.current.image = (lastAssigned (utf8 "image") assignments).getD []

theorem assigned_nil (p : TomlReader) (line : Bytes) :
    Assigned code issuer (p.beginSection line) [] (p.beginSection line) :=
  ⟨rfl, rfl, rfl, rfl, rfl, rfl, rfl, rfl⟩

/-- One assignment replaces the value of its key, and nothing else. -/
theorem Assigned.set {p q : TomlReader} {assignments : List (Bytes × Bytes)} (h : Assigned code issuer p assignments q)
    (a : Bytes × Bytes) : Assigned code issuer p (assignments ++ [a]) (q.set code issuer a) := by
  obtain ⟨hin, hbest, hhave, hcode, hissuer, hname, hdesc, himage⟩ := h
  have hkeys : [utf8 "code", utf8 "issuer", utf8 "name", utf8 "desc", utf8 "image"].Nodup := by decide
  simp only [List.nodup_cons, List.mem_cons, List.not_mem_nil, or_false, not_or] at hkeys
  obtain ⟨⟨hci, hcn, hcd, hcm⟩, ⟨hin', hid, him⟩, ⟨hnd, hnm⟩, hdm, -⟩ := hkeys
  unfold TomlReader.set
  split_ifs with h1 h2 h3 h4 h5
  · refine ⟨hin, hbest, hhave, ?_, ?_, ?_, ?_, ?_⟩ <;>
    simp only [lastAssigned_append, if_pos h1, if_neg (ne_of_eq_of_ne h1 hci), if_neg (ne_of_eq_of_ne h1 hcn), if_neg
      (ne_of_eq_of_ne h1 hcd), if_neg (ne_of_eq_of_ne h1 hcm), Option.some.injEq, hissuer, hname, hdesc, himage]
  · refine ⟨hin, hbest, hhave, ?_, ?_, ?_, ?_, ?_⟩ <;>
    simp only [lastAssigned_append, if_neg h1, if_pos h2, if_neg (ne_of_eq_of_ne h2 hin'), if_neg (ne_of_eq_of_ne h2 hid),
      if_neg (ne_of_eq_of_ne h2 him), Option.some.injEq, hcode, hname, hdesc, himage]
  · refine ⟨hin, hbest, hhave, ?_, ?_, ?_, ?_, ?_⟩ <;>
    simp only [lastAssigned_append, if_neg h1, if_neg h2, if_pos h3, if_neg (ne_of_eq_of_ne h3 hnd), if_neg (ne_of_eq_of_ne h3
      hnm), Option.getD_some, hcode, hissuer, hdesc, himage]
  · refine ⟨hin, hbest, hhave, ?_, ?_, ?_, ?_, ?_⟩ <;>
    simp only [lastAssigned_append, if_neg h1, if_neg h2, if_neg h3, if_pos h4, if_neg (ne_of_eq_of_ne h4 hdm),
      Option.getD_some, hcode, hissuer, hname, himage]
  · refine ⟨hin, hbest, hhave, ?_, ?_, ?_, ?_, ?_⟩ <;>
    simp only [lastAssigned_append, if_neg h1, if_neg h2, if_neg h3, if_neg h4, if_pos h5, Option.getD_some, hcode, hissuer,
      hname, hdesc]
  · refine ⟨hin, hbest, hhave, ?_, ?_, ?_, ?_, ?_⟩ <;>
    simp only [lastAssigned_append, if_neg h1, if_neg h2, if_neg h3, if_neg h4, if_neg h5, hcode, hissuer, hname, hdesc, himage]

/-- The lines of a section, one after another. -/
theorem assigned_takeLines (p : TomlReader) (line : Bytes) (hcurrency : (p.beginSection line).inCurrency = true)
    (lines : List Bytes) :
    Assigned code issuer (p.beginSection line) (lines.filterMap (assignmentOf lower))
      (lines.foldl (takeLine lower code issuer) (p.beginSection line)) := by
  induction lines using List.reverseRecOn with
  | nil => exact assigned_nil p line
  | append_singleton lines rawLine ih =>
    rw [List.foldl_concat, takeLine, if_pos (ih.inCurrency.trans hcurrency), List.filterMap_append]
    cases ha : assignmentOf lower rawLine with
    | none =>
      rw [List.filterMap_cons_none ha, List.filterMap_nil, List.append_nil]
      exact ih
    | some a =>
      rw [List.filterMap_cons_some ha, List.filterMap_nil]
      exact ih.set a

/-- Outside of currency sections nothing is assigned. -/
theorem takeLines_outside {p : TomlReader} (h : p.inCurrency = false) (lines : List Bytes) :
    lines.foldl (takeLine lower code issuer) p = p := by
  induction lines with
  | nil => rfl
  | cons rawLine lines ih =>
    rw [List.foldl_cons, takeLine, if_neg (by rw [h]; exact Bool.false_ne_true)]
    exact ih

/-- What a whole section leaves behind: its entry, if it matches, and what was found before it. -/
structure Closed (lower : Char → Char) (code issuer : Bytes) (p : TomlReader) (s : TomlSection) (q : TomlReader) : Prop where
  best : q.best = p.best
  haveBest : q.haveBest = p.haveBest
  matched : q.matched = s.matchesAsset lower code issuer
  current : q.matched = true → q.current = s.entry lower

theorem beginSection_inCurrency (p : TomlReader) (s : TomlSection) :
    (p.beginSection (trimSpace s.1)).inCurrency = s.isCurrency := by
  simp only [beginSection, TomlSection.isCurrency]

theorem closed_section (p : TomlReader) (s : TomlSection) :
    Closed lower code issuer p s (s.2.foldl (takeLine lower code issuer) (p.beginSection (trimSpace s.1))) := by
  have hin := beginSection_inCurrency p s
  cases hcurrency : s.isCurrency with
  | false =>
    rw [takeLines_outside (hin.trans hcurrency)]
    refine ⟨rfl, rfl, ?_, fun h => absurd h Bool.false_ne_true⟩
    rw [TomlSection.matchesAsset, hcurrency, Bool.false_and, Bool.false_and]
    rfl
  | true =>
    have h : Assigned code issuer (p.beginSection (trimSpace s.1)) (s.2.filterMap (assignmentOf lower)) _ :=
      assigned_takeLines p (trimSpace s.1) (hin.trans hcurrency) s.2
    refine ⟨h.best, h.haveBest, ?_, fun _ => ?_⟩
    · rw [matched, h.codeMatch, h.issuerMatch, TomlSection.matchesAsset, hcurrency, Bool.true_and, TomlSection.field,
        TomlSection.field]
    · rw [TomlSection.entry, TomlSection.field, TomlSection.field, TomlSection.field, ← h.name, ← h.desc, ← h.image]

/-! ## All sections -/

/-- The best entry of some further sections, after what was found before them. -/
def bestOf (lower : Char → Char) (code issuer : Bytes) (p : TomlReader) (all : List TomlSection) : TomlEntry :=
  let entries := matchingEntries lower code issuer all
  (entries.find? fun e => decide (e.image ≠ [])).getD (if p.haveBest then p.best else entries.head?.getD p.best)

/-- A section that does not match is passed over. -/
theorem bestOf_skip {p q : TomlReader} {s : TomlSection} (h : Closed lower code issuer p s q) (hmatch : q.matched = false)
    (all : List TomlSection) : bestOf lower code issuer p (s :: all) = bestOf lower code issuer q all := by
  have hskip : matchingEntries lower code issuer (s :: all) = matchingEntries lower code issuer all := by
    have hpass : ¬s.matchesAsset lower code issuer = true := by
      rw [← h.matched, hmatch]
      exact Bool.false_ne_true
    rw [matchingEntries, List.filter_cons, if_neg hpass]
    rfl
  simp only [bestOf, hskip, h.best, h.haveBest]

theorem matchingEntries_cons {p q : TomlReader} {s : TomlSection} (h : Closed lower code issuer p s q) (hmatch : q.matched = true)
    (all : List TomlSection) :
    matchingEntries lower code issuer (s :: all) = q.current :: matchingEntries lower code issuer all := by
  have hkeep : s.matchesAsset lower code issuer = true := h.matched.symm.trans hmatch
  rw [matchingEntries, List.filter_cons, if_pos hkeep, List.map_cons, ← h.current hmatch]
  rfl

/-- The end of a section is considered as the best entry asks. -/
theorem bestOf_consider {p q : TomlReader} {s : TomlSection} (h : Closed lower code issuer p s q) (all : List TomlSection) :
    bestOf lower code issuer p (s :: all) =
      if q.consider.2 then q.consider.1.best else bestOf lower code issuer q.consider.1 all := by
  unfold consider
  cases hmatch : q.matched with
  | false => exact bestOf_skip h hmatch all
  | true =>
    simp only [bestOf, matchingEntries_cons h hmatch, List.find?_cons, List.head?_cons, Option.getD_some]
    by_cases himage : q.current.image = []
    · simp only [himage, ne_eq, not_true_eq_false, decide_false, if_false]
      cases hhave : q.haveBest with
      | false => simp [← h.haveBest, hhave]
      | true => simp [← h.haveBest, hhave, h.best]
    · simp [himage]

/-- The lines, when the parser is inside a section: the end of this one is considered, and then come the others. -/
theorem walkLines_eq (p : TomlReader) (lines : List Bytes) :
    walkLines lower code issuer p lines =
      let q := (lines.takeWhile fun l => !beginsSection l).foldl (takeLine lower code issuer) p
      if q.consider.2 then q.consider.1.best else bestOf lower code issuer q.consider.1 (sections beginsSection lines) := by
  induction lines generalizing p with
  | nil =>
    have hnone : bestOf lower code issuer p.consider.1 [] = p.consider.1.best := by
      show (if _ then _ else _) = _
      split <;> rfl
    show p.consider.1.best = if p.consider.2 then p.consider.1.best else bestOf lower code issuer p.consider.1 []
    rw [hnone, ite_self]
  | cons rawLine rest ih =>
    cases hbegins : beginsSection rawLine with
    | false =>
      rw [walkLines_takeLine p hbegins, ih, List.takeWhile_cons, hbegins, sections, hbegins]
      rfl
    | true =>
      rw [walkLines_begins p hbegins, ih, List.takeWhile_cons, hbegins, sections, hbegins,
        ← bestOf_consider (closed_section p.consider.1 (rawLine, rest.takeWhile fun l => !beginsSection l))]
      rfl

end TomlReader

end

/-- The line parser finds what the sections say. -/
theorem currencyMeta_eq (lower : Char → Char) (text code issuer : Bytes) :
    currencyMeta lower text code issuer = sectionMeta lower code issuer (text.splitOn 0x0A) := by
  rw [currencyMeta, TomlReader.walkLines_eq]
  simp only [TomlReader.takeLines_outside (show TomlReader.start.inCurrency = false from rfl)]
  show TomlReader.bestOf lower code issuer TomlReader.start _ = _
  rw [TomlReader.bestOf, sectionMeta, bestEntry]
  generalize matchingEntries lower code issuer (sections beginsSection (text.splitOn 0x0A)) = entries
  cases entries.find? fun e => decide (e.image ≠ []) with
  | none => rfl
  | some e => rfl

/-- Sections that do not match say nothing, wherever they stand between other sections. -/
theorem sectionMeta_insert (lower : Char → Char) (code issuer : Bytes) {front inserted rest : List Bytes}
    (hinserted : StartsSection beginsSection inserted) (hrest : StartsSection beginsSection rest)
    (hmatch : ∀ s ∈ sections beginsSection inserted, TomlSection.matchesAsset lower s code issuer = false) :
    sectionMeta lower code issuer (front ++ inserted ++ rest) = sectionMeta lower code issuer (front ++ rest) := by
  have hnone : (sections beginsSection inserted).filter (fun s => TomlSection.matchesAsset lower s code issuer) = [] := by
    refine List.filter_eq_nil_iff.mpr fun s hs => ?_
    rw [hmatch s hs]
    exact Bool.false_ne_true
  rw [sectionMeta, sectionMeta, sections_append hrest, sections_append hinserted, sections_append hrest, matchingEntries,
    matchingEntries, List.filter_append, List.filter_append, List.filter_append, hnone, List.append_nil]

/-- `currencyMeta` returns the first matching section with an image, or else the first matching one, or else nothing. So
sections that do not match can be put in anywhere between the others, or taken out. -/
theorem currencyMeta_sections (lower : Char → Char) (code issuer : Bytes) :
    (∀ text, currencyMeta lower text code issuer =
      bestEntry (matchingEntries lower code issuer (sections beginsSection (text.splitOn 0x0A)))) ∧
    ∀ (text text' : Bytes) (front inserted rest : List Bytes),
      text.splitOn 0x0A = front ++ rest → text'.splitOn 0x0A = front ++ inserted ++ rest →
      StartsSection beginsSection inserted → StartsSection beginsSection rest →
      (∀ s ∈ sections beginsSection inserted, TomlSection.matchesAsset lower s code issuer = false) →
        currencyMeta lower text' code issuer = currencyMeta lower text code issuer := by
  refine ⟨fun text => currencyMeta_eq lower text code issuer, ?_⟩
  intro text text' front inserted rest htext htext' hinserted hrest hmatch
  rw [currencyMeta_eq, currencyMeta_eq, htext, htext']
  exact sectionMeta_insert lower code issuer hinserted hrest hmatch

/-- Two sections that are not of the asset, one of them malformed, before the one that is. -/
theorem currencyMeta_sections_inserted :
    currencyMeta id (utf8 "[A]\ncode=\n[[CURRENCIES]]\ncode=Y\n[[CURRENCIES]]\ncode=X\nissuer=G\nname=N") (utf8 "X") (utf8 "G") =
      currencyMeta id (utf8 "[[CURRENCIES]]\ncode=X\nissuer=G\nname=N") (utf8 "X") (utf8 "G") := by
  refine (currencyMeta_sections id (utf8 "X") (utf8 "G")).2 _ _ []
    [utf8 "[A]", utf8 "code=", utf8 "[[CURRENCIES]]", utf8 "code=Y"]
    [utf8 "[[CURRENCIES]]", utf8 "code=X", utf8 "issuer=G", utf8 "name=N"] (by decide +kernel) (by decide +kernel) ?_ ?_
    (by decide +kernel)
  · rintro _ ⟨⟩
    decide +kernel
  · rintro _ ⟨⟩
    decide +kernel

end Icons

end Soroscan

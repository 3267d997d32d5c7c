import Soroscan.Icons
import Soroscan.Lib.Separated

/-!
# Host names

The domain of an issuer is checked on a copy in lower case, and used as it was written. The copy of a letter of ASCII is a letter of
ASCII; but so are the copies of two characters that are not.
-/

namespace Soroscan

namespace Icons

open RegularExpression (char)

/-! ## The pattern of domains -/

/-- `[a-z0-9]` -/
def alnums : List UInt8 := utf8 "abcdefghijklmnopqrstuvwxyz0123456789"

/-- `[a-z0-9]([a-z0-9-]*[a-z0-9])?` -/
def labelPattern : RegularExpression UInt8 := oneOf alnums * ((oneOf (0x2D :: alnums)).star * oneOf alnums + 1)

/-- `^[a-z0-9]([a-z0-9-]*[a-z0-9])?(\.[a-z0-9]([a-z0-9-]*[a-z0-9])?)+$` -/
def domainPattern : RegularExpression UInt8 :=
  labelPattern * ((char 0x2E * labelPattern) * (char 0x2E * labelPattern).star)

theorem mem_alnums (b : UInt8) : b ∈ alnums ↔ isAlnum b = true := by
  have hall : ∀ b : UInt8, alnums.contains b = isAlnum b := by decide +kernel
  rw [← hall b, List.contains_iff_mem]

theorem notMem_of_isLabel {label : Bytes} (h : isLabel label = true) : 0x2E ∉ label := by
  intro hdot
  rw [isLabel, Bool.and_eq_true, List.all_eq_true] at h
  exact absurd (h.2 _ hdot) (by decide)

/-- A label of two characters or more. -/
theorem isLabel_ends (a z : UInt8) (mid : Bytes) : isLabel (a :: (mid ++ [z])) = true ↔
    isAlnum a = true ∧ isAlnum z = true ∧ ∀ b ∈ mid, b ∈ (0x2D :: alnums : List UInt8) := by
  have hinner : ∀ b, b ∈ (0x2D :: alnums : List UInt8) ↔ (isAlnum b || b = 0x2D) = true := by
    intro b
    rw [List.mem_cons, mem_alnums, Bool.or_eq_true, decide_eq_true_iff, or_comm]
  have hlast : (a :: (mid ++ [z])).getLast? = some z := List.getLast?_concat (l := a :: mid)
  unfold isLabel
  simp only [hlast, hinner, Bool.and_eq_true, List.all_eq_true, Option.any_some, List.head?_cons]
  constructor
  · rintro ⟨⟨ha, hz⟩, hall⟩
    exact ⟨ha, hz, fun b hb => hall b (List.mem_cons_of_mem _ (List.mem_append_left _ hb))⟩
  · rintro ⟨ha, hz, hmid⟩
    refine ⟨⟨ha, hz⟩, fun b hb => ?_⟩
    rcases List.mem_cons.mp hb with rfl | hb
    · rw [ha, Bool.true_or]
    · rcases List.mem_append.mp hb with hb | hb
      · exact hmid b hb
      · rw [List.mem_singleton.mp hb, hz, Bool.true_or]

/-- A label begins with a letter or digit; what follows, if anything does, ends with one and has hyphens among the others. -/
theorem mem_labelPattern (label : Bytes) : label ∈ labelPattern.matches' ↔ isLabel label = true := by
  have hone : ∀ x, x ∈ (oneOf alnums).matches' ↔ ∃ a, isAlnum a = true ∧ x = [a] := by
    intro x
    simp only [mem_oneOf, mem_alnums]
  unfold labelPattern
  simp only [RegularExpression.matches'_mul, RegularExpression.matches'_add, RegularExpression.matches'_epsilon]
  constructor
  · intro h
    obtain ⟨_, ha, rest, hrest, rfl⟩ := Language.mem_mul.mp h
    obtain ⟨a, halnum, rfl⟩ := (hone _).mp ha
    rcases (Language.mem_add _ _ _).mp hrest with hrest | hrest
    · obtain ⟨mid, hmid, _, hz, rfl⟩ := Language.mem_mul.mp hrest
      obtain ⟨z, hz', rfl⟩ := (hone _).mp hz
      exact (isLabel_ends a z mid).mpr ⟨halnum, hz', (mem_star_oneOf _ _).mp hmid⟩
    · rw [(Language.mem_one _).mp hrest]
      simp [isLabel, halnum]
  · intro h
    match label with
    | [] => exact absurd h (by decide)
    | a :: rest =>
      rcases List.eq_nil_or_concat rest with rfl | ⟨mid, z, hrest⟩
      · have ha : isAlnum a = true := by
          rw [isLabel, Bool.and_eq_true, Bool.and_eq_true] at h
          exact h.1.1
        exact Language.append_mem_mul ((hone _).mpr ⟨a, ha, rfl⟩) ((Language.mem_add _ _ _).mpr (.inr (Language.nil_mem_one)))
      · rw [List.concat_eq_append] at hrest
        subst hrest
        obtain ⟨ha, hz, hmid⟩ := (isLabel_ends a z mid).mp h
        have hrest := Language.append_mem_mul ((mem_star_oneOf _ mid).mpr hmid) ((hone _).mpr ⟨z, hz, rfl⟩)
        exact Language.append_mem_mul ((hone _).mpr ⟨a, ha, rfl⟩) ((Language.mem_add _ _ _).mpr (.inl hrest))

/-- The check of a domain is the pattern, matched from end to end. -/
theorem domainShape_iff (s : Bytes) : domainShape s = true ↔ s ∈ domainPattern.matches' := by
  have hlabel : ∀ label ∈ labelPattern.matches', 0x2E ∉ label := fun label h => notMem_of_isLabel ((mem_labelPattern label).mp h)
  unfold domainPattern
  simp only [RegularExpression.matches'_mul, RegularExpression.matches'_star, RegularExpression.matches'_char]
  rw [mem_separated_iff hlabel, domainShape, Bool.and_eq_true, decide_eq_true_iff, List.all_eq_true]
  simp only [mem_labelPattern]

/-! ## Lower case -/

/-- What the lower-case mapping of Unicode does with ASCII: its letters have lower-case letters of ASCII, and of the other
characters only two do, U+0130 and U+212A. -/
structure UnicodeLower (lower : Char → Char) : Prop where
  ascii : ∀ c : Char, c.toNat < 0x80 → lower c = c.toLower
  dotted : lower '\u0130' = 'i'
  kelvin : lower '\u212A' = 'k'
  others : ∀ c : Char, 0x80 ≤ c.toNat → c ≠ '\u0130' → c ≠ '\u212A' → 0x80 ≤ (lower c).toNat

/-- One of the two characters beyond ASCII whose lower case is ASCII. -/
def isLookalike (r : Option Char) : Bool := r = some '\u0130' || r = some '\u212A'

/-- The lower case of a byte of ASCII. -/
def lowerByte (b : UInt8) : UInt8 := if 0x41 ≤ b && b ≤ 0x5A then b + 0x20 else b

/-- The byte of a character of ASCII. -/
def asciiByte (c : Char) : UInt8 := UInt8.ofNat c.toNat

theorem utf8EncodeChar_ascii {c : Char} (h : c.toNat < 0x80) : String.utf8EncodeChar c = [asciiByte c] := by
  have hle : c.val.toNat ≤ 0x7F := Nat.le_of_lt_succ h
  rw [String.utf8EncodeChar, if_pos hle]
  rfl

theorem asciiByte_lt {c : Char} (h : c.toNat < 0x80) : asciiByte c < 0x80 := by
  rw [UInt8.lt_iff_toNat_lt, asciiByte, UInt8.toNat_ofNat', Nat.mod_eq_of_lt (by omega)]
  exact h

/-- A character that is written in bytes of ASCII is one of ASCII: the first byte of another one is no such byte. -/
theorem toNat_lt_of_encoded {c : Char} (h : ∀ b ∈ String.utf8EncodeChar c, b < 0x80) : c.toNat < 0x80 := by
  have hfirst : ∀ n : Nat, 0xC0 ≤ n → n < 0x100 → ¬UInt8.ofNat n < 0x80 := by
    intro n hn hlt
    rw [UInt8.lt_iff_toNat_lt, UInt8.toNat_ofNat', Nat.mod_eq_of_lt (by omega)]
    exact Nat.not_lt.mpr (Nat.le_trans (by decide) hn)
  by_contra hge
  have hval : ¬c.val.toNat ≤ 0x7F := fun hle => hge (Nat.lt_succ_of_le hle)
  rw [String.utf8EncodeChar, if_neg hval] at h
  split at h
  · exact hfirst _ (by omega) (by omega) (h _ List.mem_cons_self)
  · split at h
    · exact hfirst _ (by omega) (by omega) (h _ List.mem_cons_self)
    · exact hfirst _ (by omega) (by omega) (h _ List.mem_cons_self)

theorem utf8EncodeChar_toLower {c : Char} (h : c.toNat < 0x80) : String.utf8EncodeChar c.toLower = [lowerByte (asciiByte c)] := by
  have hall : ∀ n : Fin 0x80, String.utf8EncodeChar (Char.ofNat n).toLower = [lowerByte (asciiByte (Char.ofNat n))] := by
    decide +kernel
  have hc := hall ⟨c.toNat, h⟩
  rwa [Char.ofNat_toNat] at hc

/-- The characters of bytes of ASCII. -/
theorem decodeRunes_ascii {s : Bytes} (h : ∀ b ∈ s, b < 0x80) : decodeRunes s = s.map fun b => some (Char.ofNat b.toNat) := by
  induction s with
  | nil => rfl
  | cons b s ih =>
    obtain ⟨hb, hs⟩ := List.forall_mem_cons.mp h
    unfold decodeRunes
    rw [if_pos hb, ih hs, List.map_cons]

/-- A byte of ASCII is the byte of its character. -/
theorem ofNat_toNat_lt {b : UInt8} (h : b < 0x80) : (Char.ofNat b.toNat).toNat < 0x80 ∧ asciiByte (Char.ofNat b.toNat) = b := by
  have hlt : b.toNat < 0x80 := UInt8.lt_iff_toNat_lt.mp h
  have hval : (Char.ofNat b.toNat).toNat = b.toNat := toNat_ofNat (.inl (by omega))
  rw [asciiByte, hval]
  exact ⟨hlt, UInt8.ofNat_toNat⟩

section

variable {lower : Char → Char} (hlower : UnicodeLower lower)

include hlower

/-- The lower case of ASCII is taken byte by byte. -/
theorem toLower_ascii {s : Bytes} (h : ∀ b ∈ s, b < 0x80) : toLower lower s = s.map lowerByte := by
  rw [toLower, decodeRunes_ascii h, List.flatMap_map, List.map_eq_flatMap]
  refine List.flatMap_congr fun b hb => ?_
  obtain ⟨hlt, hbyte⟩ := ofNat_toNat_lt (h b hb)
  rw [Option.getD_some, hlower.ascii _ hlt, utf8EncodeChar_toLower hlt, hbyte]

/-- A character whose lower case is ASCII is of ASCII itself, or one of two others. -/
theorem ascii_of_lower {r : Option Char} (h : (lower (r.getD runeError)).toNat < 0x80) (hr : isLookalike r = false) :
    ∃ c, r = some c ∧ c.toNat < 0x80 := by
  rw [isLookalike, Bool.or_eq_false_iff, decide_eq_false_iff_not, decide_eq_false_iff_not] at hr
  cases r with
  | none =>
    have hother := hlower.others runeError (by decide) (by decide) (by decide)
    exact absurd h (Nat.not_lt.mpr hother)
  | some c =>
    refine ⟨c, rfl, ?_⟩
    by_contra hge
    have hother := hlower.others c (Nat.le_of_not_lt hge) (fun hc => hr.1 (by rw [hc])) fun hc => hr.2 (by rw [hc])
    exact absurd h (Nat.not_lt.mpr hother)

/-- Text whose lower case is ASCII is ASCII, unless it has one of the two characters. -/
theorem ascii_of_toLower {s : Bytes} (h : ∀ b ∈ toLower lower s, b < 0x80) (hs : ∀ r ∈ decodeRunes s, isLookalike r = false) :
    ∀ b ∈ s, b < 0x80 := by
  have hascii : ∀ r ∈ decodeRunes s, ∃ c, r = some c ∧ c.toNat < 0x80 := by
    intro r hr
    refine ascii_of_lower hlower (toNat_lt_of_encoded fun b hb => h b ?_) (hs r hr)
    exact List.mem_flatMap.mpr ⟨r, hr, hb⟩
  have hvalid : validUtf8 s = true := by
    rw [validUtf8, List.all_eq_true]
    intro r hr
    obtain ⟨c, rfl, -⟩ := hascii r hr
    rfl
  intro b hb
  rw [← utf8EncodeChar_decodeRunes runeError s hvalid] at hb
  obtain ⟨c, hc, hb⟩ := List.mem_flatMap.mp hb
  obtain ⟨r, hr, rfl⟩ := List.mem_map.mp hc
  obtain ⟨c, rfl, hlt⟩ := hascii r hr
  rw [Option.getD_some, utf8EncodeChar_ascii hlt, List.mem_singleton] at hb
  rw [hb]
  exact asciiByte_lt hlt

end

/-! ## Plain host names -/

/-- A letter or digit of ASCII, a hyphen or a dot. -/
def isHostByte (b : UInt8) : Bool :=
  (0x41 ≤ b && b ≤ 0x5A) || (0x61 ≤ b && b ≤ 0x7A) || (0x30 ≤ b && b ≤ 0x39) || b = 0x2D || b = 0x2E

/-- A plain host name: letters, digits, hyphens and dots of ASCII, in two labels at least, of which none is empty and none begins or
ends with a hyphen. -/
structure HostName (s : Bytes) : Prop where
  chars : ∀ b ∈ s, isHostByte b = true
  twoLabels : 2 ≤ (s.splitOn 0x2E).length
  labels : ∀ label ∈ s.splitOn 0x2E, label ≠ [] ∧ label.head? ≠ some 0x2D ∧ label.getLast? ≠ some 0x2D
  length_le : s.length ≤ 253

/-- A byte of a domain. -/
def isDomainByte (b : UInt8) : Bool := isAlnum b || b = 0x2D || b = 0x2E

/-- What a byte must be for its lower case to be one of a domain. -/
theorem isDomainByte_lowerByte : ∀ b : UInt8, isDomainByte (lowerByte b) = isHostByte b := by decide +kernel

theorem lowerByte_eq_dot : ∀ b : UInt8, lowerByte b = 0x2E ↔ b = 0x2E := by decide +kernel

theorem isHostByte_lt : ∀ b : UInt8, isHostByte b = true → b < 0x80 := by decide +kernel

theorem isDomainByte_lt : ∀ b : UInt8, isDomainByte b = true → b < 0x80 := by decide +kernel

/-- The bytes of a domain. -/
theorem byte_of_domainShape {s : Bytes} (h : domainShape s = true) {b : UInt8} (hb : b ∈ s) : isDomainByte b = true := by
  rw [domainShape, Bool.and_eq_true, List.all_eq_true] at h
  by_cases hdot : b = 0x2E
  · rw [isDomainByte, decide_eq_true hdot, Bool.or_true]
  · obtain ⟨label, hlabel, hmem⟩ := mem_part_of_ne hb hdot
    have hall := h.2 label hlabel
    rw [isLabel, Bool.and_eq_true, List.all_eq_true] at hall
    rw [isDomainByte, hall.2 b hmem, Bool.true_or]

/-- A label in lower case neither begins nor ends with a hyphen, and the label as it was written does not either. -/
theorem label_of_lower {label : Bytes} (h : isLabel (label.map lowerByte) = true) :
    label ≠ [] ∧ label.head? ≠ some 0x2D ∧ label.getLast? ≠ some 0x2D := by
  have hhyphen : isAlnum (lowerByte 0x2D) = false := by decide
  rw [isLabel, Bool.and_eq_true, Bool.and_eq_true, List.head?_map, List.getLast?_map] at h
  obtain ⟨⟨hhead, hlast⟩, -⟩ := h
  refine ⟨?_, fun heq => ?_, fun heq => ?_⟩
  · rintro rfl
    cases hhead
  · rw [heq, Option.map_some, Option.any_some, hhyphen] at hhead
    cases hhead
  · rw [heq, Option.map_some, Option.any_some, hhyphen] at hlast
    cases hlast

/-- A domain of ASCII that is accepted is a plain host name. -/
theorem hostName_of_ascii {lower : Char → Char} (hlower : UnicodeLower lower) {s : Bytes} (hascii : ∀ b ∈ s, b < 0x80)
    (h : usableDomain lower s = true) : HostName s := by
  rw [usableDomain, toLower_ascii hlower hascii, Bool.and_eq_true, decide_eq_true_iff] at h
  obtain ⟨hshape, hlength⟩ := h
  have hchars : ∀ b ∈ s, isHostByte b = true := by
    intro b hb
    rw [← isDomainByte_lowerByte]
    exact byte_of_domainShape hshape (List.mem_map_of_mem hb)
  rw [domainShape, splitOn_map lowerByte fun b _ => lowerByte_eq_dot b, List.length_map, Bool.and_eq_true, decide_eq_true_iff,
    List.all_map, List.all_eq_true] at hshape
  exact ⟨hchars, hshape.1, fun label hlabel => label_of_lower (hshape.2 label hlabel), hlength⟩

/-- A plain host name has none of the two characters. -/
theorem HostName.isLookalike_eq_false {s : Bytes} (h : HostName s) : ∀ r ∈ decodeRunes s, isLookalike r = false := by
  have hascii : ∀ b ∈ s, b < 0x80 := fun b hb => isHostByte_lt b (h.chars b hb)
  intro r hr
  rw [decodeRunes_ascii hascii] at hr
  obtain ⟨b, hb, rfl⟩ := List.mem_map.mp hr
  have hlt := (ofNat_toNat_lt (hascii b hb)).1
  rw [isLookalike, Bool.or_eq_false_iff, decide_eq_false_iff_not, decide_eq_false_iff_not]
  refine ⟨fun heq => ?_, fun heq => ?_⟩
  · rw [Option.some.inj heq] at hlt
    exact absurd hlt (by decide)
  · rw [Option.some.inj heq] at hlt
    exact absurd hlt (by decide)

/-- An accepted domain is a plain host name exactly when it has none of the two characters. -/
theorem hostName_iff {lower : Char → Char} (hlower : UnicodeLower lower) {s : Bytes} (h : usableDomain lower s = true) :
    HostName s ↔ ∀ r ∈ decodeRunes s, isLookalike r = false := by
  refine ⟨HostName.isLookalike_eq_false, fun hs => hostName_of_ascii hlower (ascii_of_toLower hlower (fun b hb => ?_) hs) h⟩
  rw [usableDomain, Bool.and_eq_true] at h
  exact isDomainByte_lt b (byte_of_domainShape h.1 hb)

/-! ## What is asked for and reported -/

/-- Every domain in the url of a stellar.toml, and every one that is reported, is a plain host name. -/
structure OnlyPlainHosts (lower : Char → Char) (up : Upstream) (code issuer : Bytes) (now : Nat) : Prop where
  requested : ∀ url, tomlRequest lower up.account code issuer = some url → ∃ domain, url = tomlURL domain ∧ HostName domain
  reported : ∀ e m, resolve lower up code issuer now = .ok e → metaOf e = .ok m → HostName m.domain

theorem tomlURL_injective {domain domain' : Bytes} (h : tomlURL domain = tomlURL domain') : domain = domain' :=
  List.append_cancel_left (List.append_cancel_right h)

section

variable {lower : Char → Char} {up : Upstream} {code issuer : Bytes} {now : Nat}

/-- The url that is asked for is that of an accepted domain. -/
theorem domain_of_tomlRequest {url : Bytes} (h : tomlRequest lower up.account code issuer = some url) :
    ∃ domain, domainOf up.account code issuer = .ok domain ∧ usableDomain lower domain = true ∧ url = tomlURL domain := by
  unfold tomlRequest at h
  cases hdomain : domainOf up.account code issuer with
  | error error =>
    rw [hdomain] at h
    cases h
  | ok domain =>
    rw [hdomain] at h
    cases husable : usableDomain lower domain with
    | false =>
      simp only [husable] at h
      cases h
    | true =>
      simp only [husable] at h
      cases h
      exact ⟨domain, rfl, husable, rfl⟩

theorem tomlRequest_of_usable {domain : Bytes} (hdomain : domainOf up.account code issuer = .ok domain)
    (husable : usableDomain lower domain = true) : tomlRequest lower up.account code issuer = some (tomlURL domain) := by
  unfold tomlRequest
  simp only [hdomain, husable, Bool.not_true, Bool.false_eq_true, if_false]

/-- An image changes nothing about the domain. -/
theorem withImage_domain {resolved e : Entry} {image : Fetch Body} (h : withImage resolved image = .ok e) :
    e.domain = resolved.domain := by
  unfold withImage at h
  split at h
  · cases h
    rfl
  · split at h
    · cases h
    · cases h
      rfl

/-- The domain of a resolved entry was accepted. -/
theorem domain_of_resolve {e : Entry} (h : resolve lower up code issuer now = .ok e) (hne : e.domain ≠ []) :
    domainOf up.account code issuer = .ok e.domain ∧ usableDomain lower e.domain = true := by
  unfold resolve at h
  cases hdomain : domainOf up.account code issuer with
  | error error =>
    simp only [hdomain] at h
    split at h
    · cases h
      exact absurd rfl hne
    · cases h
  | ok domain =>
    simp only [hdomain] at h
    split at h
    · cases h
      exact absurd rfl hne
    · next husable =>
      have husable : usableDomain lower domain = true := by simpa using husable
      have heq : e.domain = domain := by
        split at h
        · split at h
          · cases h
          · cases h
            rfl
        · split at h
          · cases h
            rfl
          · exact withImage_domain h
      rw [heq]
      exact ⟨rfl, husable⟩

/-- Only plain host names are asked for and reported exactly when no domain is accepted that has one of the two characters. -/
theorem onlyPlainHosts_iff (hlower : UnicodeLower lower) (up : Upstream) (code issuer : Bytes) (now : Nat) :
    OnlyPlainHosts lower up code issuer now ↔ ∀ domain, domainOf up.account code issuer = .ok domain →
      usableDomain lower domain = true → ∀ r ∈ decodeRunes domain, isLookalike r = false := by
  constructor
  · intro h domain hdomain husable
    obtain ⟨domain', hurl, hhost⟩ := h.requested _ (tomlRequest_of_usable hdomain husable)
    rw [tomlURL_injective hurl]
    exact hhost.isLookalike_eq_false
  · intro h
    constructor
    · intro url hurl
      obtain ⟨domain, hdomain, husable, rfl⟩ := domain_of_tomlRequest hurl
      exact ⟨domain, rfl, (hostName_iff hlower husable).mpr (h domain hdomain husable)⟩
    · intro e m he hm
      unfold metaOf at hm
      split at hm
      · cases hm
      · next hne =>
        cases hm
        obtain ⟨hdomain, husable⟩ := domain_of_resolve he hne
        exact (hostName_iff hlower husable).mpr (h e.domain hdomain husable)

end

/-! ## An issuer without and one with such a character -/

/-- The lower case of ASCII, and of the two characters. -/
def foldLower (c : Char) : Char := if c = '\u0130' then 'i' else if c = '\u212A' then 'k' else c.toLower

theorem unicodeLower_foldLower : UnicodeLower foldLower where
  ascii c hlt := by
    have hdotted : c ≠ '\u0130' := by
      rintro rfl
      exact absurd hlt (by decide)
    have hkelvin : c ≠ '\u212A' := by
      rintro rfl
      exact absurd hlt (by decide)
    rw [foldLower, if_neg hdotted, if_neg hkelvin]
  dotted := rfl
  kelvin := rfl
  others c hge hdotted hkelvin := by
    have hupper : ¬(c.val ≥ 'A'.val ∧ c.val ≤ 'Z'.val) := by
      rintro ⟨-, hle⟩
      have hZ : c.toNat ≤ 0x5A := UInt32.le_iff_toNat_le.mp hle
      omega
    have hsame : c.toLower = c := dif_neg hupper
    rw [foldLower, if_neg hdotted, if_neg hkelvin, hsame]
    exact hge

/-- What comes of a resolution whose issuer names a home domain, while nothing else can be reached. -/
def naming (homeDomain : Bytes) : Upstream :=
  ⟨.answered 200 (utf8 "application/json") (.account homeDomain), .failed .unreachable, .failed .unreachable⟩

/-- A domain in mixed case is a plain host name. -/
theorem onlyPlainHosts_mixedCase : OnlyPlainHosts foldLower (naming (utf8 "Aqua.Network")) (utf8 "AQUA") (utf8 "G") 0 := by
  refine (onlyPlainHosts_iff unicodeLower_foldLower _ _ _ _).mpr fun domain hdomain _ => ?_
  have hnamed : domainOf (naming (utf8 "Aqua.Network")).account (utf8 "AQUA") (utf8 "G") = .ok (utf8 "Aqua.Network") := by
    decide +kernel
  rw [hnamed] at hdomain
  cases hdomain
  decide +kernel

/-- The Kelvin sign passes for a letter, and is asked for and reported. -/
theorem kelvinSign_not_plain :
    UnicodeLower foldLower ∧
      tomlRequest foldLower (naming (utf8 "\u212Aeybase.io")).account (utf8 "AQUA") (utf8 "G") =
        some (utf8 "https://\u212Aeybase.io/.well-known/stellar.toml") ∧
      ¬OnlyPlainHosts foldLower (naming (utf8 "\u212Aeybase.io")) (utf8 "AQUA") (utf8 "G") 0 := by
  have hurl : tomlRequest foldLower (naming (utf8 "\u212Aeybase.io")).account (utf8 "AQUA") (utf8 "G") =
      some (tomlURL (utf8 "\u212Aeybase.io")) := by decide +kernel
  refine ⟨unicodeLower_foldLower, by decide +kernel, fun h => ?_⟩
  obtain ⟨domain, heq, hhost⟩ := h.requested _ hurl
  rw [← tomlURL_injective heq] at hhost
  exact absurd (hhost.chars 0xE2 (by decide +kernel)) (by decide)

end Icons

end Soroscan

import Soroscan.Lib.Utf16

/-!
# Percent escapes

`decodeURIComponent` of the web platform: a percent sign and two hexadecimal digits are a byte, and the bytes of a character stand
one after the other. A percent sign that begins no such escapes makes it throw. `Decodes` says the same as a grammar: a string is
made of units that are no percent sign, and of escapes of the bytes of a character.
-/

namespace Soroscan

namespace Percent

/-- The code unit of the percent sign. -/
def percent : UInt16 := 37

/-- The value of a hexadecimal digit, in either case. -/
def hexUnit (u : UInt16) : Option Nat :=
  if 48 ≤ u ∧ u ≤ 57 then some (u.toNat - 48)
  else if 65 ≤ u ∧ u ≤ 70 then some (u.toNat - 55)
  else if 97 ≤ u ∧ u ≤ 102 then some (u.toNat - 87)
  else none

/-- The byte of an escape at the front, and what stands behind it. -/
def octetAt : JsString → Option (UInt8 × JsString)
  | u :: a :: b :: rest =>
    if u = percent then (hexUnit a).bind fun high => (hexUnit b).map fun low => (UInt8.ofNat (high * 16 + low), rest) else none
  | _ => none

/-- The bytes of so many escapes at the front, and what stands behind them. -/
def octetsAt : Nat → JsString → Option (Bytes × JsString)
  | 0, t => some ([], t)
  | k + 1, t => (octetAt t).bind fun (b, rest) => (octetsAt k rest).map fun (bs, rest) => (b :: bs, rest)

/-- The number of bytes that a character with this first byte has, by the ones it begins with. -/
def octetCount (b : UInt8) : Option Nat :=
  if b < 0x80 then some 1
  else if b < 0xC0 then none
  else if b < 0xE0 then some 2
  else if b < 0xF0 then some 3
  else if b < 0xF8 then some 4
  else none

/-- `decodeURIComponent` of at most so many units and characters. -/
def decodeFrom : Nat → JsString → Option JsString
  | _, [] => some []
  | 0, _ :: _ => none
  | fuel + 1, u :: rest =>
    if u = percent then
      (octetAt (u :: rest)).bind fun (first, _) =>
        (octetCount first).bind fun n =>
          (octetsAt n (u :: rest)).bind fun (bs, rest) =>
            match decodeRunes bs with
            | [some c] => (decodeFrom fuel rest).map fun out => unitsOf c.toNat ++ out
            | _ => none
    else (decodeFrom fuel rest).map fun out => u :: out

/-- `decodeURIComponent`, or nothing where it throws. -/
def decodeURIComponent (t : JsString) : Option JsString := decodeFrom t.length t

/-! ## As a grammar -/

/-- Bytes and their escapes. -/
inductive Spells : Bytes → JsString → Prop
  | nil : Spells [] []
  | cons {a b : UInt16} {high low : Nat} {bs : Bytes} {t : JsString} (ha : hexUnit a = some high) (hb : hexUnit b = some low)
      (h : Spells bs t) : Spells (UInt8.ofNat (high * 16 + low) :: bs) (percent :: a :: b :: t)

/-- A string and what it decodes to. -/
inductive Decodes : JsString → JsString → Prop
  | nil : Decodes [] []
  | unit {u : UInt16} {t out : JsString} (hu : u ≠ percent) (h : Decodes t out) : Decodes (u :: t) (u :: out)
  | escape {bs : Bytes} {c : Char} {s t out : JsString} (hc : decodeRunes bs = [some c]) (hs : Spells bs s) (h : Decodes t out) :
      Decodes (s ++ t) (unitsOf c.toNat ++ out)

theorem octetAt_eq_some_iff {t rest : JsString} {b : UInt8} :
    octetAt t = some (b, rest) ↔
      ∃ x y high low, t = percent :: x :: y :: rest ∧ hexUnit x = some high ∧ hexUnit y = some low ∧
        b = UInt8.ofNat (high * 16 + low) := by
  constructor
  · intro h
    match t, h with
    | u :: x :: y :: tail, h =>
      rw [octetAt] at h
      split at h
      · rename_i hu
        obtain ⟨high, hx, h⟩ := Option.bind_eq_some_iff.mp h
        obtain ⟨low, hy, h⟩ := Option.map_eq_some_iff.mp h
        obtain ⟨rfl, rfl⟩ := Prod.mk.inj h
        exact ⟨x, y, high, low, by rw [hu], hx, hy, rfl⟩
      · cases h
  · rintro ⟨x, y, high, low, rfl, hx, hy, rfl⟩
    rw [octetAt, if_pos rfl, hx, hy]
    rfl

/-- The bytes that are read are spelled by what is read. -/
theorem octetsAt_eq_some_iff {k : Nat} {t rest : JsString} {bs : Bytes} :
    octetsAt k t = some (bs, rest) ↔ ∃ s, Spells bs s ∧ t = s ++ rest ∧ bs.length = k := by
  induction k generalizing t bs with
  | zero =>
    rw [octetsAt]
    constructor
    · intro h
      obtain ⟨rfl, rfl⟩ := Prod.mk.inj (Option.some.inj h)
      exact ⟨[], .nil, rfl, rfl⟩
    · rintro ⟨s, hs, rfl, hlength⟩
      obtain rfl := List.length_eq_zero_iff.mp hlength
      cases hs
      rfl
  | succ k ih =>
    rw [octetsAt]
    constructor
    · intro h
      obtain ⟨⟨b, tail⟩, hfirst, h⟩ := Option.bind_eq_some_iff.mp h
      obtain ⟨⟨bs', rest'⟩, hrest, h⟩ := Option.map_eq_some_iff.mp h
      obtain ⟨rfl, rfl⟩ := Prod.mk.inj h
      obtain ⟨x, y, high, low, rfl, hx, hy, rfl⟩ := octetAt_eq_some_iff.mp hfirst
      obtain ⟨s, hs, rfl, rfl⟩ := ih.mp hrest
      exact ⟨_, .cons hx hy hs, rfl, rfl⟩
    · rintro ⟨s, hs, rfl, hlength⟩
      cases hs with
      | nil => cases hlength
      | @cons x y high low _ spelled hx hy hs =>
        have hfirst := octetAt_eq_some_iff.mpr ⟨x, y, high, low, (rfl : percent :: x :: y :: (spelled ++ rest) = _), hx, hy, rfl⟩
        rw [List.cons_append, List.cons_append, List.cons_append, hfirst, Option.bind_some]
        simp only
        rw [ih.mpr ⟨_, hs, rfl, Nat.succ_inj.mp hlength⟩]
        rfl

theorem decodeRunes_eq_nil {bs : Bytes} (h : decodeRunes bs = []) : bs = [] := by
  cases bs with
  | nil => rfl
  | cons a t =>
    unfold decodeRunes at h
    repeat' split at h
    all_goals cases h

/-- The first byte of a character says how many it has. -/
theorem octetCount_of_decodeRunes {bs : Bytes} {c : Char} (h : decodeRunes bs = [some c]) :
    ∃ a t, bs = a :: t ∧ octetCount a = some bs.length := by
  have hlt : ∀ {a m n : UInt8}, a ≤ m → m < n → a < n := fun h h' => UInt8.lt_of_le_of_lt h h'
  have hge : ∀ {a m n : UInt8}, m ≤ a → n ≤ m → ¬a < n := fun h h' => UInt8.not_lt.mpr (UInt8.le_trans h' h)
  cases bs with
  | nil => cases h
  | cons a t =>
    refine ⟨a, t, rfl, ?_⟩
    unfold decodeRunes at h
    split at h
    · rename_i hascii
      rw [octetCount, if_pos hascii, decodeRunes_eq_nil (List.cons.inj h).2]
      rfl
    · rename_i hascii
      split at h
      · rename_i htwo
        rw [octetCount, if_neg hascii, if_neg (hge htwo.1 (by decide)), if_pos (hlt htwo.2 (by decide))]
        split at h
        · split at h
          · rw [decodeRunes_eq_nil (List.cons.inj h).2]
            rfl
          · cases (List.cons.inj h).1
        · cases (List.cons.inj h).1
      · split at h
        · rename_i hthree
          rw [octetCount, if_neg hascii, if_neg (hge hthree.1 (by decide)), if_neg (hge hthree.1 (by decide)),
            if_pos (hlt hthree.2 (by decide))]
          split at h
          · split at h
            · rw [decodeRunes_eq_nil (List.cons.inj h).2]
              rfl
            · cases (List.cons.inj h).1
          · cases (List.cons.inj h).1
        · split at h
          · rename_i hfour
            rw [octetCount, if_neg hascii, if_neg (hge hfour.1 (by decide)), if_neg (hge hfour.1 (by decide)),
              if_neg (hge hfour.1 (by decide)), if_pos (hlt hfour.2 (by decide))]
            split at h
            · split at h
              · rw [decodeRunes_eq_nil (List.cons.inj h).2]
                rfl
              · cases (List.cons.inj h).1
            · cases (List.cons.inj h).1
          · cases (List.cons.inj h).1

/-- What is decoded is what the grammar says. -/
theorem decodes_of_decodeFrom {fuel : Nat} {t out : JsString} (h : decodeFrom fuel t = some out) : Decodes t out := by
  induction fuel generalizing t out with
  | zero =>
    cases t with
    | nil =>
      cases h
      exact .nil
    | cons u t => cases h
  | succ fuel ih =>
    cases t with
    | nil =>
      cases h
      exact .nil
    | cons u t =>
      rw [decodeFrom] at h
      split at h
      · obtain ⟨⟨first, _⟩, -, h⟩ := Option.bind_eq_some_iff.mp h
        obtain ⟨n, -, h⟩ := Option.bind_eq_some_iff.mp h
        obtain ⟨⟨bs, rest⟩, hoctets, h⟩ := Option.bind_eq_some_iff.mp h
        obtain ⟨s, hs, hcut, -⟩ := octetsAt_eq_some_iff.mp hoctets
        rw [hcut]
        simp only at h
        split at h
        · rename_i c hc
          obtain ⟨tail, htail, rfl⟩ := Option.map_eq_some_iff.mp h
          exact .escape hc hs (ih htail)
        · cases h
      · rename_i hu
        obtain ⟨tail, htail, rfl⟩ := Option.map_eq_some_iff.mp h
        exact .unit hu (ih htail)

/-- What the grammar says is decoded. -/
theorem decodeFrom_of_decodes {t out : JsString} (h : Decodes t out) {fuel : Nat} (hfuel : t.length ≤ fuel) :
    decodeFrom fuel t = some out := by
  induction h generalizing fuel with
  | nil => cases fuel <;> rfl
  | @unit u t out hu h ih =>
    obtain ⟨fuel, rfl⟩ := Nat.exists_eq_add_of_le' (Nat.le_trans (Nat.succ_le_succ (Nat.zero_le _)) hfuel)
    rw [decodeFrom, if_neg hu, ih (Nat.le_of_succ_le_succ hfuel)]
    rfl
  | @escape bs c s t out hc hs h ih =>
    obtain ⟨first, bs, rfl, hcount⟩ := octetCount_of_decodeRunes hc
    have hoctets := octetsAt_eq_some_iff.mpr ⟨s, hs, (rfl : s ++ t = s ++ t), rfl⟩
    cases hs with
    | @cons a b high low _ spelled ha hb hs =>
      simp only [List.cons_append] at hoctets hfuel ⊢
      obtain ⟨fuel, rfl⟩ := Nat.exists_eq_add_of_le' (Nat.le_trans (Nat.succ_le_succ (Nat.zero_le _)) hfuel)
      have hfirst := octetAt_eq_some_iff.mpr ⟨a, b, high, low, (rfl : percent :: a :: b :: (spelled ++ t) = _), ha, hb, rfl⟩
      rw [decodeFrom, if_pos rfl, hfirst, Option.bind_some]
      simp only [hcount, hoctets, hc, Option.bind_some]
      rw [ih, Option.map_some]
      simp only [List.length_cons, List.length_append] at hfuel
      omega

theorem decodeURIComponent_eq_some_iff {t out : JsString} : decodeURIComponent t = some out ↔ Decodes t out :=
  ⟨decodes_of_decodeFrom, fun h => decodeFrom_of_decodes h (Nat.le_refl _)⟩

end Percent

end Soroscan

import Soroscan.Icons
import Soroscan.Lib.FixedWidth
import Mathlib.Data.List.DropRight
import Mathlib.Tactic

/-!
# Issuer-written text

`clean` goes over characters and then trims bytes. What it leaves are whole characters: safe ones, as many as allowed, with no white
space at either end.
-/

namespace Soroscan

namespace Icons

/-- Text that is fit to be served. -/
structure SafeText (limit : Nat) (t : Text) : Prop where
  safe : ∀ c ∈ t, isUnsafeRune c = false
  length_le : t.length ≤ limit
  head : ∀ c ∈ t.head?, isSpace c = false
  last : ∀ c ∈ t.getLast?, isSpace c = false

theorem isUnsafeRune_of_mem_cleanRunes {maxRunes : Nat} {cs : List Char} {c : Char} (h : c ∈ cleanRunes maxRunes cs) :
    isUnsafeRune c = false := by
  induction cs generalizing maxRunes with
  | nil => cases h
  | cons r rest ih =>
    rw [cleanRunes] at h
    split_ifs at h with hunsafe hone
    · exact ih h
    · rw [List.mem_singleton.mp h]
      exact Bool.eq_false_iff.mpr hunsafe
    · rcases List.mem_cons.mp h with rfl | h
      · exact Bool.eq_false_iff.mpr hunsafe
      · exact ih h

theorem length_cleanRunes {maxRunes : Nat} (hpos : 1 ≤ maxRunes) (cs : List Char) : (cleanRunes maxRunes cs).length ≤ maxRunes := by
  induction cs generalizing maxRunes with
  | nil => exact Nat.zero_le _
  | cons r rest ih =>
    rw [cleanRunes]
    split_ifs with hunsafe hone
    · exact ih hpos
    · exact hpos
    · have hrest : (cleanRunes (maxRunes - 1) rest).length ≤ maxRunes - 1 := ih (by omega)
      rw [List.length_cons]
      omega

/-! ## Trimming -/

theorem length_utf8Bytes (t : Text) : (utf8Bytes t).length = (t.map Char.utf8Size).sum := by
  simp [utf8Bytes, List.length_flatMap]

theorem utf8Bytes_append (s t : Text) : utf8Bytes (s ++ t) = utf8Bytes s ++ utf8Bytes t := List.flatMap_append

/-- The spaces at the front of a text take the bytes that they are written in. -/
theorem spaceWidth_map_some (t : Text) : spaceWidth (t.map some) = (utf8Bytes (t.takeWhile isSpace)).length := by
  have htake : (t.map some).takeWhile (fun r => r.any isSpace) = (t.takeWhile isSpace).map some := by
    rw [List.takeWhile_map]
    rfl
  rw [spaceWidth, htake, length_utf8Bytes, List.map_map]
  rfl

/-- Trimming the bytes of a text trims the text. -/
theorem trimSpace_utf8Bytes (t : Text) : trimSpace (utf8Bytes t) = utf8Bytes ((t.dropWhile isSpace).rdropWhile isSpace) := by
  have hfront : (utf8Bytes t).drop (spaceWidth (decodeRunes (utf8Bytes t))) = utf8Bytes (t.dropWhile isSpace) := by
    have hsplit : utf8Bytes t = utf8Bytes (t.takeWhile isSpace) ++ utf8Bytes (t.dropWhile isSpace) := by
      rw [← utf8Bytes_append, List.takeWhile_append_dropWhile]
    have hwidth : spaceWidth (decodeRunes (utf8Bytes t)) = (utf8Bytes (t.takeWhile isSpace)).length := by
      rw [utf8Bytes, decodeRunes_encoded, spaceWidth_map_some]
    rw [hwidth, hsplit, List.drop_left]
  set u := t.dropWhile isSpace with hu
  have hsplit : utf8Bytes u = utf8Bytes (u.rdropWhile isSpace) ++ utf8Bytes (u.rtakeWhile isSpace) := by
    rw [← utf8Bytes_append, List.rdropWhile_append_rtakeWhile]
  have hwidth : spaceWidth (decodeRunes (utf8Bytes u)).reverse = (utf8Bytes (u.rtakeWhile isSpace)).length := by
    rw [utf8Bytes, decodeRunes_encoded, ← List.map_reverse, spaceWidth_map_some, length_utf8Bytes, length_utf8Bytes, List.rtakeWhile,
      List.map_reverse, List.sum_reverse]
  have hlength : (utf8Bytes u).length - (utf8Bytes (u.rtakeWhile isSpace)).length = (utf8Bytes (u.rdropWhile isSpace)).length := by
    rw [hsplit, List.length_append, Nat.add_sub_cancel]
  rw [trimSpace, hfront, hwidth, hlength, hsplit, List.take_left]

/-- What `clean` leaves is text that is fit to be served. -/
theorem clean_safe {maxRunes : Nat} (hpos : 1 ≤ maxRunes) (value : Bytes) :
    ∃ t, clean value maxRunes = utf8Bytes t ∧ SafeText maxRunes t := by
  set cs := cleanRunes maxRunes ((decodeRunes value).map fun r => r.getD runeError) with hcs
  have hclean : clean value maxRunes = utf8Bytes ((cs.dropWhile isSpace).rdropWhile isSpace) := trimSpace_utf8Bytes cs
  have hfront : (cs.dropWhile isSpace).rdropWhile isSpace <+: cs.dropWhile isSpace := List.rdropWhile_prefix isSpace _
  have hsuffix : cs.dropWhile isSpace <:+ cs := List.dropWhile_suffix _
  refine ⟨_, hclean, fun c hc => isUnsafeRune_of_mem_cleanRunes (hsuffix.subset (hfront.subset hc)), ?_, ?_, ?_⟩
  · exact (hfront.length_le.trans hsuffix.length_le).trans (length_cleanRunes hpos _)
  · intro c hc
    obtain ⟨rest, hrest⟩ := List.head?_eq_some_iff.mp hc
    obtain ⟨tail, htail⟩ := hfront
    have hhead : (cs.dropWhile isSpace).head? = some c := by
      rw [← htail, hrest]
      rfl
    have hnot := List.head?_dropWhile_not isSpace cs
    rw [hhead] at hnot
    exact hnot
  · intro c hc
    obtain ⟨front, hends⟩ := List.getLast?_eq_some_iff.mp hc
    have hne : (cs.dropWhile isSpace).rdropWhile isSpace ≠ [] := by
      rw [hends]
      exact List.append_ne_nil_of_right_ne_nil _ (List.cons_ne_nil _ _)
    have hlast := List.rdropWhile_last_not isSpace (cs.dropWhile isSpace) hne
    have heq : ((cs.dropWhile isSpace).rdropWhile isSpace).getLast hne = c := by
      rw [List.getLast?_eq_some_getLast hne] at hc
      exact Option.some.inj hc
    rw [heq] at hlast
    exact Bool.eq_false_iff.mpr hlast

end Icons

end Soroscan

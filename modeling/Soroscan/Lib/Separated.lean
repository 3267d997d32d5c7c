import Mathlib.Computability.RegularExpressions

/-!
# Words between separators

The words that a separator cuts a list into, and the lists a pattern of words between separators matches: a first word, and then a
separator and a word, once or more.
-/

namespace Soroscan

open Computability

variable {α β : Type}

/-! ## Cutting -/

/-- A map that takes the separator, and nothing else, to the other separator. -/
theorem splitOn_map [DecidableEq α] [DecidableEq β] (f : α → β) {a : α} {b : β} {l : List α} (h : ∀ x ∈ l, f x = b ↔ x = a) :
    (l.map f).splitOn b = (l.splitOn a).map (List.map f) := by
  have hhead : ∀ (x : α) (ls : List (List α)),
      (ls.map (List.map f)).modifyHead (List.cons (f x)) = (ls.modifyHead (List.cons x)).map (List.map f) := by
    rintro x (_ | ⟨l, ls⟩) <;> rfl
  induction l with
  | nil => rfl
  | cons x l ih =>
    obtain ⟨hx, hl⟩ := List.forall_mem_cons.mp h
    rw [List.map_cons, List.splitOn_cons_eq_if_modifyHead, List.splitOn_cons_eq_if_modifyHead, ih hl]
    by_cases hxa : x = a
    · rw [if_pos (beq_iff_eq.mpr (hx.mpr hxa)), if_pos (beq_iff_eq.mpr hxa)]
      rfl
    · rw [if_neg (mt beq_iff_eq.mp (mt hx.mp hxa)), if_neg (mt beq_iff_eq.mp hxa), hhead]

/-- What is not a separator belongs to a word. -/
theorem mem_part_of_ne [DecidableEq α] {a x : α} {l : List α} (h : x ∈ l) (hne : x ≠ a) : ∃ part ∈ l.splitOn a, x ∈ part := by
  have hl : [a].intercalate (l.splitOn a) = l := List.intercalate_splitOn a
  rw [← hl] at h
  generalize l.splitOn a = parts at h ⊢
  induction parts with
  | nil => exact absurd h List.not_mem_nil
  | cons part parts ih =>
    cases parts with
    | nil =>
      rw [List.intercalate_singleton] at h
      exact ⟨part, List.mem_cons_self, h⟩
    | cons part' parts =>
      rw [List.intercalate_cons_cons, List.append_assoc] at h
      rcases List.mem_append.mp h with hx | hx
      · exact ⟨part, List.mem_cons_self, hx⟩
      · obtain ⟨p, hp, hxp⟩ := ih ((List.mem_cons.mp hx).resolve_left hne)
        exact ⟨p, List.mem_cons_of_mem _ hp, hxp⟩

/-! ## Putting together -/

/-- Words, each behind a separator. -/
def separated (a : α) (words : List (List α)) : List α := (words.map (List.cons a)).flatten

theorem intercalate_eq_append (a : α) (w : List α) (words : List (List α)) :
    [a].intercalate (w :: words) = w ++ separated a words := by
  induction words generalizing w with
  | nil => rw [List.intercalate_singleton, separated, List.map_nil, List.flatten_nil, List.append_nil]
  | cons w' words ih =>
    rw [List.intercalate_cons_cons, ih, List.append_assoc]
    rfl

/-! ## Patterns -/

/-- One of some symbols. -/
def oneOf (as : List α) : RegularExpression α := as.foldr (fun a e => .char a + e) 0

theorem mem_oneOf (as : List α) (x : List α) : x ∈ (oneOf as).matches' ↔ ∃ a ∈ as, x = [a] := by
  induction as with
  | nil => simp [oneOf]
  | cons a as ih =>
    rw [oneOf, List.foldr_cons, ← oneOf, RegularExpression.matches'_add, Language.mem_add, ih, List.exists_mem_cons_iff]
    exact Iff.rfl

/-- Symbols, any number of them. -/
theorem mem_star_oneOf (as : List α) (x : List α) : x ∈ (oneOf as).star.matches' ↔ ∀ a ∈ x, a ∈ as := by
  rw [RegularExpression.matches'_star, Language.mem_kstar]
  constructor
  · rintro ⟨xs, rfl, hxs⟩ a ha
    obtain ⟨_, hmem, ha⟩ := List.mem_flatten.mp ha
    obtain ⟨b, hb, rfl⟩ := (mem_oneOf as _).mp (hxs _ hmem)
    rwa [List.mem_singleton.mp ha]
  · intro hx
    refine ⟨x.map fun a => [a], by rw [← List.flatMap_def, List.flatMap_singleton'], fun y hy => ?_⟩
    obtain ⟨a, ha, rfl⟩ := List.mem_map.mp hy
    exact (mem_oneOf as _).mpr ⟨a, hx a ha, rfl⟩

/-- A separator and then a word, any number of times: words, each behind a separator. -/
theorem mem_kstar_separated {L : Language α} {a : α} (x : List α) :
    x ∈ ({[a]} * L)∗ ↔ ∃ words, (∀ w ∈ words, w ∈ L) ∧ x = separated a words := by
  constructor
  · intro hx
    obtain ⟨ds, rfl, hds⟩ := Language.mem_kstar.mp hx
    clear hx
    induction ds with
    | nil => exact ⟨[], fun _ hw => absurd hw List.not_mem_nil, rfl⟩
    | cons d ds ih =>
      obtain ⟨hd, hrest⟩ := List.forall_mem_cons.mp hds
      obtain ⟨_, rfl, w, hw, rfl⟩ := Language.mem_mul.mp hd
      obtain ⟨words, hwords, hseparated⟩ := ih hrest
      exact ⟨w :: words, List.forall_mem_cons.mpr ⟨hw, hwords⟩, by rw [List.flatten_cons, hseparated]; rfl⟩
  · rintro ⟨words, hwords, rfl⟩
    refine Language.join_mem_kstar fun d hd => ?_
    obtain ⟨w, hw, rfl⟩ := List.mem_map.mp hd
    exact Language.append_mem_mul (Set.mem_singleton [a]) (hwords w hw)

/-- A first word, and then a separator and a word, once or more: the list has two words at least, all in the language. -/
theorem mem_separated_iff [DecidableEq α] {L : Language α} {a : α} (hL : ∀ w ∈ L, a ∉ w) (x : List α) :
    x ∈ L * (({[a]} * L) * ({[a]} * L)∗) ↔ 2 ≤ (x.splitOn a).length ∧ ∀ part ∈ x.splitOn a, part ∈ L := by
  constructor
  · intro hx
    obtain ⟨w, hw, _, htail, rfl⟩ := Language.mem_mul.mp hx
    obtain ⟨_, hd, _, hstar, rfl⟩ := Language.mem_mul.mp htail
    obtain ⟨_, rfl, w', hw', rfl⟩ := Language.mem_mul.mp hd
    obtain ⟨words, hwords, rfl⟩ := (mem_kstar_separated _).mp hstar
    have hall : ∀ v ∈ w :: w' :: words, v ∈ L := List.forall_mem_cons.mpr ⟨hw, List.forall_mem_cons.mpr ⟨hw', hwords⟩⟩
    have hsplit : (w ++ ([a] ++ w' ++ separated a words)).splitOn a = w :: w' :: words := by
      have hseparated : w ++ ([a] ++ w' ++ separated a words) = [a].intercalate (w :: w' :: words) :=
        (intercalate_eq_append a w (w' :: words)).symm
      rw [hseparated]
      exact List.splitOn_intercalate a (fun v hv => hL v (hall v hv)) (List.cons_ne_nil _ _)
    rw [hsplit]
    exact ⟨Nat.le_add_left 2 _, hall⟩
  · rintro ⟨hlength, hparts⟩
    have hx : [a].intercalate (x.splitOn a) = x := List.intercalate_splitOn a
    rw [← hx]
    generalize x.splitOn a = parts at hlength hparts ⊢
    match parts with
    | [] | [_] => simp at hlength
    | w :: w' :: words =>
      obtain ⟨hw, hrest⟩ := List.forall_mem_cons.mp hparts
      obtain ⟨hw', hwords⟩ := List.forall_mem_cons.mp hrest
      rw [intercalate_eq_append]
      have hfirst : [a] ++ w' ∈ ({[a]} * L : Language α) := Language.append_mem_mul (Set.mem_singleton [a]) hw'
      exact Language.append_mem_mul hw (Language.append_mem_mul hfirst ((mem_kstar_separated _).mpr ⟨words, hwords, rfl⟩))

end Soroscan

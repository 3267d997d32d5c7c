import Mathlib.Algebra.Order.Group.Nat
import Mathlib.Data.List.Basic
import Mathlib.Tactic.Ring

/-!
# Numbers written with digits

A list of digits as a number in a base, the first digit counting most. Lists of one length are ordered as their numbers are, when the
digits are.
-/

namespace Soroscan

namespace Positional

variable {α : Type*}

/-- The number that a list of digits denotes, read on from a number. -/
def readOn (base : Nat) (digit : α → Nat) (n : Nat) (s : List α) : Nat := s.foldl (fun n u => n * base + digit u) n

/-- The number that a list of digits denotes. -/
def value (base : Nat) (digit : α → Nat) (s : List α) : Nat := readOn base digit 0 s

/-- Which symbols are digits: each is less than the base, and they are ordered as their values are. -/
structure IsDigits [LT α] (base : Nat) (digit : α → Nat) (p : α → Prop) : Prop where
  lt_base : ∀ u, p u → digit u < base
  lt_iff : ∀ u v, p u → p v → (u < v ↔ digit u < digit v)
  injective : ∀ u v, p u → p v → digit u = digit v → u = v

section

variable {base : Nat} {digit : α → Nat}

theorem readOn_eq (n : Nat) (s : List α) : readOn base digit n s = n * base ^ s.length + value base digit s := by
  rw [value, readOn, readOn]
  induction s generalizing n with
  | nil => rw [List.foldl_nil, List.foldl_nil, List.length_nil, Nat.pow_zero, Nat.mul_one, Nat.add_zero]
  | cons u s ih =>
    rw [List.foldl_cons, List.foldl_cons, ih, ih (0 * base + _), List.length_cons]
    ring

@[simp] theorem value_nil : value base digit [] = 0 := rfl

theorem value_cons (u : α) (s : List α) : value base digit (u :: s) = digit u * base ^ s.length + value base digit s := by
  rw [← readOn_eq, value, readOn, readOn, List.foldl_cons, Nat.zero_mul, Nat.zero_add]

theorem value_append (s t : List α) : value base digit (s ++ t) = value base digit s * base ^ t.length + value base digit t := by
  rw [← readOn_eq, value, value, readOn, readOn, readOn, List.foldl_append]

end

section

variable [LT α] {base : Nat} {digit : α → Nat} {p : α → Prop} (hp : IsDigits base digit p)
include hp

/-- Digits denote less than the next power of the base. -/
theorem value_lt {s : List α} (hs : ∀ u ∈ s, p u) : value base digit s < base ^ s.length := by
  induction s with
  | nil => exact Nat.one_pos
  | cons u s ih =>
    obtain ⟨hu, hs⟩ := List.forall_mem_cons.mp hs
    have hdigit : (digit u + 1) * base ^ s.length ≤ base * base ^ s.length := Nat.mul_le_mul_right _ (hp.lt_base u hu)
    have htail := ih hs
    rw [value_cons, List.length_cons, Nat.pow_succ, Nat.mul_comm _ base]
    rw [Nat.add_mul, Nat.one_mul] at hdigit
    omega

/-- Lists of digits of one length are ordered as their numbers are. -/
theorem lt_iff_value_lt {s t : List α} (hs : ∀ u ∈ s, p u) (ht : ∀ u ∈ t, p u) (hlength : s.length = t.length) :
    s < t ↔ value base digit s < value base digit t := by
  induction s generalizing t with
  | nil =>
    rw [List.length_eq_zero_iff.mp hlength.symm]
    exact iff_of_false (List.not_lt_nil []) (Nat.lt_irrefl 0)
  | cons u s ih =>
    obtain ⟨v, t, rfl⟩ := List.exists_cons_of_length_eq_add_one hlength.symm
    rw [List.length_cons, List.length_cons, Nat.add_right_cancel_iff] at hlength
    obtain ⟨hu, hs⟩ := List.forall_mem_cons.mp hs
    obtain ⟨hv, ht⟩ := List.forall_mem_cons.mp ht
    have hsmall := value_lt hp hs
    have hsmall' := value_lt hp ht
    rw [List.cons_lt_cons_iff, ih hs ht hlength, value_cons, value_cons, ← hlength, hp.lt_iff u v hu hv]
    rw [← hlength] at hsmall'
    -- a greater digit counts more than all that follows the smaller one
    have hgreater : ∀ a b : Nat, a < b → a * base ^ s.length + base ^ s.length ≤ b * base ^ s.length := by
      intro a b hab
      have hle := Nat.mul_le_mul_right (base ^ s.length) hab
      rwa [Nat.succ_mul] at hle
    constructor
    · rintro (hlt | ⟨rfl, hlt⟩)
      · have := hgreater _ _ hlt
        omega
      · omega
    · intro hlt
      rcases Nat.lt_trichotomy (digit u) (digit v) with hd | hd | hd
      · exact Or.inl hd
      · rw [hd] at hlt
        exact Or.inr ⟨hp.injective u v hu hv hd, by omega⟩
      · have := hgreater _ _ hd
        omega

/-- Lists of digits of one length that denote one number are the same. -/
theorem eq_of_value_eq {s t : List α} (hs : ∀ u ∈ s, p u) (ht : ∀ u ∈ t, p u) (hlength : s.length = t.length)
    (h : value base digit s = value base digit t) : s = t := by
  induction s generalizing t with
  | nil => exact (List.length_eq_zero_iff.mp hlength.symm).symm
  | cons u s ih =>
    obtain ⟨v, t, rfl⟩ := List.exists_cons_of_length_eq_add_one hlength.symm
    rw [List.length_cons, List.length_cons, Nat.add_right_cancel_iff] at hlength
    obtain ⟨hu, hs⟩ := List.forall_mem_cons.mp hs
    obtain ⟨hv, ht⟩ := List.forall_mem_cons.mp ht
    have hsmall := value_lt hp hs
    have hsmall' := value_lt hp ht
    rw [← hlength] at hsmall'
    rw [value_cons, value_cons, ← hlength] at h
    have htail : value base digit s = value base digit t := by
      have hmod := congrArg (· % base ^ s.length) h
      simpa only [Nat.mul_add_mod_self_right, Nat.mod_eq_of_lt hsmall, Nat.mod_eq_of_lt hsmall'] using hmod
    rw [htail, Nat.add_right_cancel_iff] at h
    rw [ih hs ht hlength htail, hp.injective u v hu hv (Nat.eq_of_mul_eq_mul_right (by omega) h)]

end

/-- A list before another of its length stays before it, whatever follows the two. -/
theorem append_lt_append [LT α] {s t : List α} (x y : List α) (hlength : s.length = t.length) (h : s < t) : s ++ x < t ++ y := by
  induction s generalizing t with
  | nil =>
    rw [List.length_eq_zero_iff.mp hlength.symm] at h
    exact absurd h (List.not_lt_nil [])
  | cons u s ih =>
    obtain ⟨v, t, rfl⟩ := List.exists_cons_of_length_eq_add_one hlength.symm
    rw [List.length_cons, List.length_cons, Nat.add_right_cancel_iff] at hlength
    rw [List.cons_append, List.cons_append, List.cons_lt_cons_iff]
    rcases List.cons_lt_cons_iff.mp h with hlt | ⟨rfl, hlt⟩
    · exact Or.inl hlt
    · exact Or.inr ⟨rfl, ih hlength hlt⟩

end Positional

end Soroscan

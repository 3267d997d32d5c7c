import Mathlib.Data.List.Basic
import Mathlib.Data.List.TakeDrop
import Mathlib.Data.List.Pairwise
import Mathlib.Order.Basic
import Mathlib.Tactic

/-!
# Lists that are read page by page

A list whose keys ascend is read in pages: a page is what follows the item with a given key. The pages of one reader, each from
the last item of the page before, put together the front of the list. A list is contiguous when the items with one group stand
next to each other.
-/

namespace Soroscan

section

variable {α κ : Type*} [LinearOrder κ] {key : α → κ}

/-- The keys ascend strictly. -/
def Ascending (key : α → κ) (l : List α) : Prop := l.Pairwise fun a b => key a < key b

/-- The items behind a cursor, all of them without one. -/
def behind (key : α → κ) (cursor : Option κ) (l : List α) : List α := l.filter fun a => decide (∀ c ∈ cursor, c < key a)

theorem behind_none (l : List α) : behind key none l = l :=
  List.filter_eq_self.mpr fun _ _ => decide_eq_true fun _ hc => nomatch hc

/-- Behind the key of an item stand the items that follow it. -/
theorem behind_key {front rest : List α} {a : α} (h : Ascending key (front ++ a :: rest)) :
    behind key (some (key a)) (front ++ a :: rest) = rest := by
  obtain ⟨-, hrest, hfront⟩ := List.pairwise_append.mp h
  have hbefore : front.filter (fun b => decide (∀ c ∈ some (key a), c < key b)) = [] := by
    refine List.filter_eq_nil_iff.mpr fun b hb => ?_
    rw [decide_eq_true_eq]
    intro hlt
    exact lt_asymm (hfront b hb a List.mem_cons_self) (hlt _ rfl)
  have hself : ¬∀ c ∈ some (key a), c < key a := fun hlt => lt_irrefl _ (hlt _ rfl)
  have hbehind : rest.filter (fun b => decide (∀ c ∈ some (key a), c < key b)) = rest := by
    refine List.filter_eq_self.mpr fun b hb => decide_eq_true ?_
    rintro _ ⟨⟩
    exact List.rel_of_pairwise_cons hrest hb
  rw [behind, List.filter_append, hbefore, List.filter_cons_of_neg (by rw [decide_eq_true_eq]; exact hself), hbehind,
    List.nil_append]

/-- Behind the first items stand the others. -/
theorem behind_take {l : List α} (h : Ascending key l) {n : Nat} (hn : n ≤ l.length) :
    behind key ((l.take n).getLast?.map key) l = l.drop n := by
  cases hlast : (l.take n).getLast? with
  | none =>
    have hzero : n = 0 := by
      have hlength := congrArg List.length (List.getLast?_eq_none_iff.mp hlast)
      rw [List.length_take, List.length_nil] at hlength
      omega
    rw [hzero]
    exact behind_none l
  | some a =>
    obtain ⟨front, hfront⟩ := List.getLast?_eq_some_iff.mp hlast
    have hl : l = front ++ a :: l.drop n := by
      rw [← List.singleton_append, ← List.append_assoc, ← hfront, List.take_append_drop]
    have hbehind := behind_key (hl ▸ h)
    rw [← hl] at hbehind
    exact hbehind

end

section

variable {α γ : Type*} {group : α → γ}

/-- Between two items of one group stand only items of that group. -/
def Contiguous (group : α → γ) (l : List α) : Prop := ∀ a b c, [a, b, c].Sublist l → group a = group c → group b = group a

theorem Contiguous.sublist {l l' : List α} (h : Contiguous group l) (hsub : l'.Sublist l) : Contiguous group l' :=
  fun a b c hl heq => h a b c (hl.trans hsub) heq

/-- An item of a new group is not one of the groups further in front. -/
theorem Contiguous.not_mem {front last : List α} {b c : α} (h : Contiguous group ((front ++ last) ++ [c])) (hb : b ∈ last)
    (hne : group b ≠ group c) {a : α} (ha : a ∈ front) : group a ≠ group c := by
  intro heq
  have hsub : [a, b, c].Sublist ((front ++ last) ++ [c]) :=
    ((List.singleton_sublist.mpr ha).append (List.singleton_sublist.mpr hb)).append (List.Sublist.refl [c])
  exact hne ((h a b c hsub heq).trans heq)

end

end Soroscan

import Mathlib.Data.List.Sort
import Mathlib.Data.List.Lex
import Mathlib.Data.List.Nodup
import Mathlib.Data.List.TakeDrop
import Mathlib.Tactic

/-!
# Lists in descending order

Lists whose items descend by a key, as a sorted query returns them. Sorting keeps the order of the items with one key, so that
a query that is split into several conditions can be put together again. Where the keys are pairwise distinct the items descend
strictly, and such a list is determined by its members.
-/

namespace Soroscan

section

variable {α κ : Type*} [LinearOrder κ] {key : α → κ}

/-- The keys never ascend. -/
def Falling (key : α → κ) (l : List α) : Prop := l.Pairwise fun a b => key b ≤ key a

/-- The keys descend strictly. -/
def Descending (key : α → κ) (l : List α) : Prop := l.Pairwise fun a b => key b < key a

/-- The items in the descending order of their keys. -/
def descending (key : α → κ) (l : List α) : List α := l.insertionSort fun a b => key b ≤ key a

@[simp] theorem mem_descending {l : List α} {a : α} : a ∈ descending key l ↔ a ∈ l := List.mem_insertionSort _

theorem descending_perm (l : List α) : (descending key l).Perm l := List.perm_insertionSort _ l

theorem falling_descending (l : List α) : Falling key (descending key l) := by
  have htotal : Std.Total fun a b : α => key b ≤ key a := ⟨fun a b => le_total _ _⟩
  have htrans : IsTrans α fun a b : α => key b ≤ key a := ⟨fun a b c hab hbc => le_trans hbc hab⟩
  exact List.pairwise_insertionSort _ l

namespace Falling

theorem filter {l : List α} (h : Falling key l) (p : α → Bool) : Falling key (l.filter p) :=
  List.Pairwise.sublist List.filter_sublist h

/-- A condition whose items all come before the ones of another condition: the items of either one are those of the first, and
then those of the second. -/
theorem filter_or {l : List α} (h : Falling key l) {p q : α → Bool}
    (hpq : ∀ a ∈ l, ∀ b ∈ l, p a = true → q b = true → key b < key a) :
    (l.filter fun a => p a || q a) = l.filter p ++ l.filter q := by
  induction l with
  | nil => rfl
  | cons a l ih =>
    obtain ⟨hhead, htail⟩ := List.pairwise_cons.mp h
    have hrest := ih htail fun b hb c hc => hpq b (List.mem_cons_of_mem _ hb) c (List.mem_cons_of_mem _ hc)
    cases hp : p a with
    | true =>
      have hq : q a = false := by
        by_contra hq
        rw [Bool.not_eq_false] at hq
        exact lt_irrefl _ (hpq a List.mem_cons_self a List.mem_cons_self hp hq)
      simp only [List.filter_cons, hp, hq, Bool.or_false, if_true, Bool.false_eq_true, if_false, hrest, List.cons_append]
    | false =>
      cases hq : q a with
      | false => simp only [List.filter_cons, hp, hq, Bool.or_false, Bool.false_eq_true, if_false, hrest]
      | true =>
        -- what comes after an item of the second condition is not of the first
        have hnil : l.filter p = [] := by
          rw [List.filter_eq_nil_iff]
          intro b hb hpb
          have hlt := hpq b (List.mem_cons_of_mem _ hb) a List.mem_cons_self hpb hq
          exact absurd hlt (not_lt.mpr (hhead b hb))
        simp only [List.filter_cons, hp, hq, Bool.false_or, if_true, Bool.false_eq_true, if_false, hrest, hnil, List.nil_append]

/-- An item is put in its place among the ones that meet a condition as it is among all of them. -/
theorem filter_orderedInsert {l : List α} (h : Falling key l) (p : α → Bool) (a : α) :
    (l.orderedInsert (fun a b => key b ≤ key a) a).filter p =
      if p a then (l.filter p).orderedInsert (fun a b => key b ≤ key a) a else l.filter p := by
  induction l with
  | nil => by_cases hp : p a <;> simp [hp]
  | cons b l ih =>
    obtain ⟨hhead, htail⟩ := List.pairwise_cons.mp h
    rw [List.orderedInsert_cons]
    by_cases hle : key b ≤ key a
    · rw [if_pos hle, List.filter_cons]
      split_ifs with hp
      · -- every item that is left is not above the new one
        cases hf : (b :: l).filter p with
        | nil => rfl
        | cons c rest =>
          have hc : c ∈ b :: l := (List.mem_filter.mp (by rw [hf]; exact List.mem_cons_self)).1
          have hcb : key c ≤ key b := by
            rcases List.mem_cons.mp hc with rfl | hc
            · exact le_rfl
            · exact hhead c hc
          rw [List.orderedInsert_cons, if_pos (le_trans hcb hle)]
      · rfl
    · rw [if_neg hle, List.filter_cons, ih htail]
      split_ifs with hpb hpa hpa
      · rw [List.filter_cons, if_pos hpb, List.orderedInsert_cons, if_neg hle]
      · rw [List.filter_cons, if_pos hpb]
      · rw [List.filter_cons, if_neg hpb]
      · rw [List.filter_cons, if_neg hpb]

end Falling

/-- Filtering before sorting is filtering after it. -/
theorem descending_filter (l : List α) (p : α → Bool) : descending key (l.filter p) = (descending key l).filter p := by
  induction l with
  | nil => rfl
  | cons a l ih =>
    have hcons : descending key (a :: l) = (descending key l).orderedInsert (fun a b => key b ≤ key a) a := rfl
    rw [hcons, (falling_descending l).filter_orderedInsert, ← ih, List.filter_cons]
    split_ifs <;> rfl

/-- Sorting items with different keys gives a strictly descending list. -/
theorem descending_of_nodup {l : List α} (h : (l.map key).Nodup) : Descending key (descending key l) := by
  have hnodup : ((descending key l).map key).Nodup := ((descending_perm l).map key).nodup_iff.mpr h
  have hne : (descending key l).Pairwise fun a b => key a ≠ key b := List.pairwise_map.mp hnodup
  exact ((falling_descending l).and hne).imp fun hab => lt_of_le_of_ne hab.1 hab.2.symm

namespace Descending

theorem falling {l : List α} (h : Descending key l) : Falling key l := h.imp le_of_lt

theorem nodup {l : List α} (h : Descending key l) : l.Nodup :=
  h.imp fun hlt heq => absurd hlt (by rw [heq]; exact lt_irrefl _)

/-- Items with one key are one item. -/
theorem eq_of_key_eq {l : List α} (h : Descending key l) {a b : α} (ha : a ∈ l) (hb : b ∈ l) (hkey : key a = key b) : a = b := by
  have hkeys : (l.map key).Nodup := List.pairwise_map.mpr (h.imp fun hlt heq => absurd hlt (by rw [heq]; exact lt_irrefl _))
  exact List.inj_on_of_nodup_map hkeys ha hb hkey

/-- Two strictly descending lists with the same members are one list. -/
theorem eq_of_mem_iff {l₁ l₂ : List α} (h₁ : Descending key l₁) (h₂ : Descending key l₂) (h : ∀ a, a ∈ l₁ ↔ a ∈ l₂) :
    l₁ = l₂ := by
  have hantisymm : Std.Antisymm fun a b : α => key b < key a := ⟨fun a b hab hba => absurd hab (lt_asymm hba)⟩
  have hirrefl : Std.Irrefl fun a b : α => key b < key a := ⟨fun a => lt_irrefl _⟩
  exact List.Pairwise.eq_of_mem_iff h₁ h₂ h

/-- A list in weakly descending order that has the items of a strictly descending one is that one. -/
theorem eq_of_perm {l₁ l₂ : List α} (h₁ : Falling key l₁) (h₂ : Descending key l₂)
    (hperm : l₁.Perm l₂) : l₁ = l₂ := by
  have hkeys : (l₂.map key).Nodup := List.pairwise_map.mpr (h₂.imp fun hlt heq => absurd hlt (by rw [heq]; exact lt_irrefl _))
  have hnodup : l₁.Pairwise fun a b => key a ≠ key b := List.pairwise_map.mp ((hperm.map key).nodup_iff.mpr hkeys)
  have hstrict : Descending key l₁ := (h₁.and hnodup).imp fun h => lt_of_le_of_ne h.1 (Ne.symm h.2)
  exact hstrict.eq_of_mem_iff h₂ fun a => hperm.mem_iff

theorem sublist {l₁ l₂ : List α} (h : Descending key l₂) (hs : l₁.Sublist l₂) : Descending key l₁ := List.Pairwise.sublist hs h

theorem filter {l : List α} (h : Descending key l) (p : α → Bool) : Descending key (l.filter p) :=
  h.sublist List.filter_sublist

theorem take {l : List α} (h : Descending key l) (n : Nat) : Descending key (l.take n) := h.sublist (List.take_sublist n l)

theorem append {l₁ l₂ : List α} (h₁ : Descending key l₁) (h₂ : Descending key l₂)
    (h : ∀ a ∈ l₁, ∀ b ∈ l₂, key b < key a) : Descending key (l₁ ++ l₂) := List.pairwise_append.mpr ⟨h₁, h₂, h⟩

/-- The items of a cut list are the items before the cut: what was cut off lies below every item that was kept. -/
theorem lt_of_take {l : List α} (h : Descending key l) {n : Nat} {a b : α} (ha : a ∈ l.take n) (hb : b ∈ l)
    (hcut : b ∉ l.take n) : key b < key a := by
  have happ := h
  rw [← List.take_append_drop n l] at happ hb
  rcases List.mem_append.mp hb with hb | hb
  · exact absurd hb hcut
  · exact (List.pairwise_append.mp happ).2.2 a ha b hb

/-- The last item is the least. -/
theorem getLast_le {l : List α} (h : Descending key l) {a b : α} (ha : l.getLast? = some a) (hb : b ∈ l) : key a ≤ key b := by
  obtain ⟨front, rfl⟩ := List.getLast?_eq_some_iff.mp ha
  rcases List.mem_append.mp hb with hb | hb
  · exact ((List.pairwise_append.mp h).2.2 b hb a List.mem_cons_self).le
  · rw [List.mem_singleton.mp hb]

/-- The first items are those from the last one of them on. -/
theorem take_eq_filter {l : List α} (h : Descending key l) {n : Nat} {a : α} (ha : (l.take n).getLast? = some a) :
    l.take n = l.filter fun b => decide (key a ≤ key b) := by
  have hmem : a ∈ l.take n := List.mem_of_getLast? ha
  refine (h.take n).eq_of_mem_iff (h.filter _) fun b => ?_
  rw [List.mem_filter, decide_eq_true_eq]
  constructor
  · intro hb
    exact ⟨List.mem_of_mem_take hb, (h.take n).getLast_le ha hb⟩
  · rintro ⟨hb, hle⟩
    by_contra hcut
    exact absurd (h.lt_of_take hmem hb hcut) (not_lt.mpr hle)

end Descending

end

/-! ## Groups -/

section

variable {α κ ι : Type*} [LinearOrder κ] [LinearOrder ι] {key : α → κ}

/-- The greatest groups of a list, at most as many as asked for, each once. -/
def topGroups (group : α → ι) (n : Nat) (l : List α) : List ι := (descending id (l.map group).dedup).take n

theorem mem_of_mem_topGroups {group : α → ι} {n : Nat} {l : List α} {i : ι} (h : i ∈ topGroups group n l) :
    ∃ a ∈ l, group a = i := by
  have := List.mem_of_mem_take h
  rw [mem_descending, List.mem_dedup] at this
  exact List.mem_map.mp this

theorem topGroups_nodup (group : α → ι) (n : Nat) (l : List α) : (topGroups group n l).Nodup :=
  ((descending_perm _).nodup_iff.mpr (List.nodup_dedup _)).sublist (List.take_sublist _ _)

theorem descending_dedup (l : List ι) : Descending id (descending id l.dedup) :=
  descending_of_nodup (by rw [List.map_id]; exact List.nodup_dedup _)

/-- The order of the items does not matter for their greatest groups. -/
theorem topGroups_perm {group : α → ι} {l l' : List α} (h : l.Perm l') (n : Nat) :
    topGroups group n l = topGroups group n l' := by
  have heq : descending id (l.map group).dedup = descending id (l'.map group).dedup := by
    refine (descending_dedup _).eq_of_mem_iff (descending_dedup _) fun i => ?_
    rw [mem_descending, mem_descending, List.mem_dedup, List.mem_dedup, (h.map group).mem_iff]
  rw [topGroups, topGroups, heq]

/-- A group that is not among the greatest ones lies below all of them. -/
theorem lt_of_not_mem_topGroups {group : α → ι} {n : Nat} {l : List α} {i : ι} (hi : i ∈ topGroups group n l) {a : α}
    (ha : a ∈ l) (hno : group a ∉ topGroups group n l) : group a < i := by
  refine (descending_dedup (l.map group)).lt_of_take hi ?_ hno
  rw [mem_descending, List.mem_dedup]
  exact List.mem_map_of_mem ha

/-- When fewer groups are found than were asked for, every item is in one of them. -/
theorem mem_topGroups_of_length_lt {group : α → ι} {n : Nat} {l : List α} (h : (topGroups group n l).length < n) {a : α}
    (ha : a ∈ l) : group a ∈ topGroups group n l := by
  have hlen : (descending id (l.map group).dedup).length ≤ n := by
    by_contra hlt
    rw [topGroups, List.length_take, min_eq_left (by omega)] at h
    exact lt_irrefl _ h
  rw [topGroups, List.take_of_length_le hlen, mem_descending, List.mem_dedup]
  exact List.mem_map_of_mem ha

/-- The items of the `n` greatest groups are enough for the first `n` items, when the groups descend with the keys. -/
theorem take_filter_topGroups (group : α → ι) {l : List α} (h : Falling key l)
    (hgroup : ∀ a ∈ l, ∀ b ∈ l, group b < group a → key b < key a) (n : Nat) :
    (l.filter fun a => decide (group a ∈ topGroups group n l)).take n = l.take n := by
  have hsplit : l = (l.filter fun a => decide (group a ∈ topGroups group n l)) ++
      l.filter fun a => decide (group a ∉ topGroups group n l) := by
    rw [← h.filter_or]
    · rw [List.filter_eq_self.mpr]
      intro a _
      simp only [Bool.or_eq_true, decide_eq_true_eq]
      exact em _
    · intro a ha b hb hin hout
      rw [decide_eq_true_eq] at hin hout
      exact hgroup a ha b hb (lt_of_not_mem_topGroups hin hb hout)
  by_cases hlen : n ≤ (l.filter fun a => decide (group a ∈ topGroups group n l)).length
  · conv_rhs => rw [hsplit]
    rw [List.take_append_of_le_length hlen]
  · -- fewer items than asked for: each group has one, so no group was left out
    have hgroups : (topGroups group n l).length < n := by
      refine lt_of_le_of_lt ?_ (not_le.mp hlen)
      have hsub : topGroups group n l ⊆ (l.filter fun a => decide (group a ∈ topGroups group n l)).map group := by
        intro i hi
        obtain ⟨a, ha, rfl⟩ := mem_of_mem_topGroups hi
        exact List.mem_map_of_mem (List.mem_filter.mpr ⟨ha, by simpa using hi⟩)
      have hle := ((topGroups_nodup group n l).subperm hsub).length_le
      rwa [List.length_map] at hle
    have hall : (l.filter fun a => decide (group a ∈ topGroups group n l)) = l := by
      rw [List.filter_eq_self]
      intro a ha
      exact decide_eq_true (mem_topGroups_of_length_lt hgroups ha)
    rw [hall]

end

end Soroscan

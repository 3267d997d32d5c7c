import Soroscan.Verify

/-!
# The verifier's sampling

The loop draws until it has as many different ledgers as it was asked for. With a generator that draws every ledger of the span at some
time it ends when the span has as many, and then the sample is right; when it has fewer, the loop goes on for ever.
-/

namespace Soroscan

namespace Verify

/-- A sample: ledgers of the span in their order, with every boundary of a backfill that is in it, and enough of them. -/
structure IsSample (names : List Text) (sample : Int) (tip : Nat) (out : List Nat) : Prop where
  increasing : out.Pairwise (· < ·)
  inSpan : ∀ seq ∈ out, protocol20 ≤ seq ∧ seq ≤ tip
  boundaries : ∀ name ∈ names, ∀ start stop, scanRange name = some (start, stop) →
    ∀ b, b = start ∨ b = stop → protocol20 ≤ b → b ≤ tip → b ∈ out
  enough : min sample (span tip) ≤ out.length

/-- A generator for the span: it draws numbers below its size, and each at some time. -/
structure IsGenerator (draws : Nat → Nat) (tip : Nat) : Prop where
  inRange : ∀ i, (draws i : Int) < span tip
  complete : ∀ n : Nat, (n : Int) < span tip → ∃ i, draws i = n

/-- The name under which a backfill is recorded. -/
def backfillName (start stop : Nat) : Text := "backfill:".toList ++ decimal start ++ "-".toList ++ decimal stop

/-! ## The boundaries -/

theorem scanUint32_decimal {n : Nat} (hn : n < 2 ^ 32) {t : Text} (ht : ∀ c, t.head? = some c → c.isDigit = false) :
    scanUint32 (decimal n ++ t) = some (n, t) := by
  obtain ⟨c, digits, hdecimal⟩ := List.exists_cons_of_ne_nil (decimal_ne_nil n)
  have hc : c.isDigit = true := isDigit_of_mem_decimal (hdecimal ▸ List.mem_cons_self)
  have hspace : (isScanSpace c && c != '\n') = false := by
    rw [Char.isDigit, Bool.and_eq_true, decide_eq_true_eq, decide_eq_true_eq] at hc
    have hlow : 48 ≤ c.toNat := hc.1
    have hhigh : c.toNat ≤ 57 := hc.2
    have hnot : isScanSpace c = false := by
      simp only [isScanSpace, Bool.or_eq_false_iff, Bool.and_eq_false_iff, decide_eq_false_iff_not, beq_eq_false_iff_ne]
      omega
    rw [hnot, Bool.false_and]
  have hskip : skipSpace (decimal n ++ t) = some (decimal n ++ t) := by
    have hdrop : (decimal n ++ t).dropWhile (fun c => isScanSpace c && c != '\n') = decimal n ++ t := by
      rw [hdecimal, List.cons_append, List.dropWhile_cons_of_neg (by rw [hspace]; exact Bool.false_ne_true)]
    rw [skipSpace, hdrop, if_neg]
    rw [hdecimal]
    intro hhead
    obtain rfl := Option.some.inj hhead
    exact absurd hc (by decide)
  have htake : t.takeWhile Char.isDigit = [] ∧ t.dropWhile Char.isDigit = t := by
    cases t with
    | nil => exact ⟨rfl, rfl⟩
    | cons d t =>
      have hd : d.isDigit = false := ht d rfl
      exact ⟨List.takeWhile_cons_of_neg (by rw [hd]; exact Bool.false_ne_true),
        List.dropWhile_cons_of_neg (by rw [hd]; exact Bool.false_ne_true)⟩
  have hdigits : ∀ c ∈ decimal n, c.isDigit = true := fun c hc => isDigit_of_mem_decimal hc
  rw [scanUint32, hskip, Option.bind_some, List.takeWhile_append_of_pos hdigits, List.dropWhile_append_of_pos hdigits, htake.1,
    htake.2, List.append_nil, readDecimal_decimal, Option.bind_some, if_pos hn]

theorem scanLiteral_append (literal t : Text) : scanLiteral literal (literal ++ t) = some t := by
  rw [scanLiteral, if_pos (List.isPrefixOf_iff_prefix.mpr (List.prefix_append _ _)), List.drop_left]

theorem backfillName_eq (start stop : Nat) :
    backfillName start stop = "backfill:".toList ++ (decimal start ++ ("-".toList ++ decimal stop)) := by
  unfold backfillName
  simp only [List.append_assoc]

/-- The range of a backfill is read from its name. -/
theorem scanRange_backfillName {start stop : Nat} (hstart : start < 2 ^ 32) (hstop : stop < 2 ^ 32) :
    scanRange (backfillName start stop) = some (start, stop) := by
  have hdash : ∀ c, ("-".toList ++ decimal stop).head? = some c → c.isDigit = false := by
    intro c hc
    obtain rfl := Option.some.inj hc
    rfl
  have hstop' : scanUint32 (decimal stop) = some (stop, []) := by
    have hscan := scanUint32_decimal hstop (t := []) fun c hc => absurd hc (Option.some_ne_none c).symm
    rwa [List.append_nil] at hscan
  rw [scanRange, backfillName_eq, scanLiteral_append, Option.bind_some, scanUint32_decimal hstart hdash, Option.bind_some]
  simp only [scanLiteral_append, Option.bind_some, hstop', Option.map_some]

theorem mem_boundaries {names : List Text} {tip b : Nat} :
    b ∈ boundaries names tip ↔
      (protocol20 ≤ b ∧ b ≤ tip) ∧ ∃ name ∈ names, ∃ start stop, scanRange name = some (start, stop) ∧ (b = start ∨ b = stop) := by
  rw [boundaries, List.mem_toFinset, List.mem_flatMap]
  constructor
  · rintro ⟨⟨start, stop⟩, hrange, hb⟩
    obtain ⟨name, hname, hscan⟩ := List.mem_filterMap.mp hrange
    obtain ⟨hb, hspan⟩ := List.mem_filter.mp hb
    exact ⟨of_decide_eq_true hspan, name, hname, start, stop, hscan, List.mem_pair.mp hb⟩
  · rintro ⟨hspan, name, hname, start, stop, hscan, hb⟩
    exact ⟨(start, stop), List.mem_filterMap.mpr ⟨name, hname, hscan⟩,
      List.mem_filter.mpr ⟨List.mem_pair.mpr hb, decide_eq_true hspan⟩⟩

/-! ## The loop -/

section

variable {names : List Text} {sample : Int} {draws : Nat → Nat} {tip : Nat}

/-- The ledgers of the span. -/
def spanLedgers (tip : Nat) : Finset Nat := Finset.Icc protocol20 tip

theorem card_spanLedgers (htip : protocol20 ≤ tip) : ((spanLedgers tip).card : Int) = span tip := by
  rw [spanLedgers, Nat.card_Icc, span]
  omega

/-- A ledger that is drawn is one of the span. -/
theorem ledger_eq (htip : tip < 2 ^ 32) (hdraws : IsGenerator draws tip) (i : Nat) :
    (protocol20 + draws i) % 2 ^ 32 = protocol20 + draws i ∧ protocol20 + draws i ≤ tip := by
  have hrange := hdraws.inRange i
  rw [span] at hrange
  have hle : protocol20 + draws i ≤ tip := by omega
  exact ⟨Nat.mod_eq_of_lt (hle.trans_lt htip), hle⟩

theorem exists_pick_iff (htip : protocol20 ≤ tip) (htip' : tip < 2 ^ 32) (hdraws : IsGenerator draws tip) :
    (∃ fuel, (pick fuel names sample draws tip).isSome = true) ↔ sample ≤ span tip := by
  have hseen : boundaries names tip ⊆ spanLedgers tip := fun b hb => Finset.mem_Icc.mpr (mem_boundaries.mp hb).1
  have hdraw : ∀ i, (protocol20 + draws i) % 2 ^ 32 ∈ spanLedgers tip := by
    intro i
    obtain ⟨hmod, hle⟩ := ledger_eq htip' hdraws i
    rw [hmod]
    exact Finset.mem_Icc.mpr ⟨Nat.le_add_right _ _, hle⟩
  have hall : ∀ seq ∈ spanLedgers tip, ∃ i, (protocol20 + draws i) % 2 ^ 32 = seq := by
    intro seq hseq
    obtain ⟨hlow, hhigh⟩ := Finset.mem_Icc.mp hseq
    obtain ⟨i, hi⟩ := hdraws.complete (seq - protocol20) (by rw [span]; omega)
    refine ⟨i, ?_⟩
    rw [(ledger_eq htip' hdraws i).1, hi]
    omega
  rw [← card_spanLedgers htip, ← exists_collect_iff hseen hdraw hall]
  exact exists_congr fun fuel => by rw [pick, Option.isSome_map]

theorem isSample_of_pick {fuel : Nat} {out : List Nat} (htip : tip < 2 ^ 32) (hdraws : IsGenerator draws tip)
    (h : pick fuel names sample draws tip = some out) : IsSample names sample tip out := by
  obtain ⟨seen, hseen, rfl⟩ := Option.map_eq_some_iff.mp h
  obtain ⟨hsubset, hcard, hmem⟩ := collect_spec hseen
  constructor
  · exact (Finset.sortedLT_sort seen).pairwise
  · intro seq hseq
    rcases hmem seq ((Finset.mem_sort _).mp hseq) with hseq | ⟨i, rfl⟩
    · exact (mem_boundaries.mp hseq).1
    · obtain ⟨hmod, hle⟩ := ledger_eq htip hdraws i
      rw [hmod]
      exact ⟨Nat.le_add_right _ _, hle⟩
  · intro name hname start stop hscan b hb hlow hhigh
    exact (Finset.mem_sort _).mpr (hsubset (mem_boundaries.mpr ⟨⟨hlow, hhigh⟩, name, hname, start, stop, hscan, hb⟩))
  · rw [Finset.length_sort]
    exact (min_le_left _ _).trans hcard

/-- The sampling ends with a sample exactly when the span has as many ledgers as were asked for. -/
theorem pick_ends_iff (names : List Text) (sample : Int) {draws : Nat → Nat} {tip : Nat} (htip : protocol20 ≤ tip)
    (htip' : tip < 2 ^ 32) (hdraws : IsGenerator draws tip) :
    ((∃ fuel, (pick fuel names sample draws tip).isSome = true) ∧
        ∀ fuel out, pick fuel names sample draws tip = some out → IsSample names sample tip out) ↔
      sample ≤ span tip := by
  rw [exists_pick_iff htip htip' hdraws]
  exact and_iff_left fun fuel out h => isSample_of_pick htip' hdraws h

end

/-- A sample of one ledger, of two that are indexed, with a backfill of both. -/
theorem pick_ends_small :
    (∃ fuel, (pick fuel [backfillName 50457424 50457425] 1 (fun i => i % 2) 50457425).isSome = true) ∧
      ∀ fuel out, pick fuel [backfillName 50457424 50457425] 1 (fun i => i % 2) 50457425 = some out →
        IsSample [backfillName 50457424 50457425] 1 50457425 out :=
  (pick_ends_iff _ _ (by decide) (by decide)
    ⟨fun i => (Int.ofNat_lt.mpr (Nat.mod_lt i (by decide)) : ((i % 2 : Nat) : Int) < 2), fun n hn =>
      ⟨n, Nat.mod_eq_of_lt (Int.ofNat_lt.mp (hn : (n : Int) < span 50457425))⟩⟩).mpr (by decide)

/-- The default sample, with only the first ledger indexed: the loop never has enough. -/
theorem pick_never_ends : ¬∃ fuel, (pick fuel [] 2000 (fun _ => 0) protocol20).isSome = true := by
  have hgenerator : IsGenerator (fun _ => 0) protocol20 :=
    ⟨fun _ => by decide, fun n hn => ⟨0, by have hlt : (n : Int) < 1 := hn; omega⟩⟩
  rw [exists_pick_iff le_rfl (by decide) hgenerator]
  decide

end Verify

end Soroscan

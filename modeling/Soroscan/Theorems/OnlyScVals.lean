import Soroscan.Lemmas.ReadsRaw

/-!
# What is shown besides contract values

The reader checks the types, the flags of optional lists, the kinds of addresses and the symbols. It does not check a boolean, an
error, the kind of an executable, the bytes that fill a byte string up to a word, or that nothing is left over.
-/

namespace Soroscan

open RawVal

/-- A value that the layout allows: its lengths fit the words before them, and its symbols have at most 32 bytes. -/
def ScVal.Allowed (v : ScVal) : Prop := v.Sized ∧ ∀ depth s, ScVal.Inside depth v (.symbol s) → s.length ≤ 32

/-- Whatever is shown of the bytes, they are as a whole those of a contract value. -/
def OnlyScVals (b : Bytes) : Prop := (decodeScVal (Base64.encode b)).isSome → ∃ v : ScVal, v.Allowed ∧ v.toXdr = b

theorem decodeScVal_encode (b : Bytes) :
    decodeScVal (Base64.encode b) = (ScReader.readScVal (maxDepth + 1) (Reader.start b)).toOption.map Prod.fst := by
  rw [decodeScVal, bytesOf, Base64.atob_encode, Option.bind_some]

/-- Something is shown of bytes exactly when they begin with fields that are readable. -/
theorem decodeScVal_isSome_iff (b : Bytes) :
    (decodeScVal (Base64.encode b)).isSome ↔ ∃ w rest, EveryPart Readable (maxDepth + 1) w ∧ b = w.bytes ++ rest := by
  rw [decodeScVal_encode]
  constructor
  · intro h
    cases hrun : ScReader.readScVal (maxDepth + 1) (Reader.start b) with
    | error e =>
      rw [hrun] at h
      cases h
    | ok shown =>
      obtain ⟨_, hrest, w, hw, rfl⟩ := ScReader.yields_readScVal (maxDepth + 1) _ shown.1 shown.2 hrun
      exact ⟨w, shown.2.rest, hw, hrest⟩
  · rintro ⟨w, rest, hw, rfl⟩
    obtain ⟨shown, r', hrun, -⟩ := ScReader.accepts_readScVal hw (Reader.start (w.bytes ++ rest)) rest rfl
    rw [hrun]
    rfl

/-- The bytes of a contract value that begin with fields are those of the fields, and the fields are clean. -/
theorem clean_of_toXdr {levels : Nat} {v : ScVal} {w : RawVal} {rest : Bytes} (hv : v.Sized) (hw : EveryPart Shaped levels w)
    (h : w.bytes ++ rest = v.toXdr) : rest = [] ∧ ∀ depth u, Inside depth w u → u.Clean := by
  have hshaped : (ofScVal v).AllShaped := by
    intro depth u hu
    obtain ⟨v', hinside, rfl⟩ := inside_ofScVal hu v rfl
    exact shaped_ofScVal (hv depth v' hinside)
  obtain ⟨rfl, hrest⟩ := bytes_append_inj hw hshaped (h.trans ((bytes_ofScVal v).symm.trans (List.append_nil _).symm))
  refine ⟨hrest, fun depth u hu => ?_⟩
  obtain ⟨v', -, rfl⟩ := inside_ofScVal hu v rfl
  exact clean_ofScVal v'

/-- Only contract values are shown of bytes exactly when readable fields they begin with take up all of them and are clean. -/
theorem onlyScVals_iff (b : Bytes) :
    OnlyScVals b ↔ ∀ (w : RawVal) (rest : Bytes), b = w.bytes ++ rest →
      (∀ depth u, Inside depth w u → depth ≤ maxDepth ∧ u.Shaped ∧ u.Named) →
        rest = [] ∧ ∀ depth u, Inside depth w u → u.Clean := by
  unfold OnlyScVals
  rw [decodeScVal_isSome_iff]
  constructor
  · intro h w rest hb hreadable
    have hw : EveryPart Readable (maxDepth + 1) w := everyPart_iff.mpr hreadable
    obtain ⟨v, ⟨hv, -⟩, hxdr⟩ := h ⟨w, rest, hw, hb⟩
    exact clean_of_toXdr hv (hw.imp fun _ hu => hu.1) (hb.symm.trans hxdr.symm)
  · rintro h ⟨w, rest, hw, rfl⟩
    obtain ⟨rfl, hclean⟩ := h w rest rfl (everyPart_iff.mp hw)
    have hboth : EveryPart (fun u => u.Shaped ∧ u.Clean) (maxDepth + 1) w := by
      refine everyPart_iff.mpr fun depth u hu => ?_
      obtain ⟨hdepth, hshaped, -⟩ := everyPart_iff.mp hw depth u hu
      exact ⟨hdepth, hshaped, hclean depth u hu⟩
    obtain ⟨v, hv, rfl⟩ := exists_ofScVal hboth
    refine ⟨v, ⟨hv, fun depth s hs => ?_⟩, by rw [← bytes_ofScVal, List.append_nil]⟩
    obtain ⟨-, -, hname⟩ := everyPart_iff.mp hw depth _ (inside_ofScVal_of_inside hs)
    have hvalid : ScReader.validSymbol s = true := hname rfl
    rw [ScReader.validSymbol, Bool.and_eq_true, decide_eq_true_eq] at hvalid
    exact hvalid.1

/-- The bytes of a boolean that is neither zero nor one. -/
def boolTwo : Bytes := [0, 0, 0, 0, 0, 0, 0, 2]

/-- They are shown as true. -/
theorem boolTwo_shown : ¬OnlyScVals boolTwo := by
  intro h
  obtain ⟨v, ⟨hv, -⟩, hxdr⟩ := h (by decide +kernel)
  have hraw : EveryPart Shaped 1 (.bool 2) := ⟨trivial, fun _ hpart => absurd hpart List.not_mem_nil⟩
  have hbytes : (RawVal.bool 2).bytes ++ [] = v.toXdr := hxdr ▸ rfl
  have hclean := (clean_of_toXdr hv hraw hbytes).2 0 _ (.self _)
  exact absurd hclean (by simp [Clean])

end Soroscan

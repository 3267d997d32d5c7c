import Soroscan.Lemmas.ArgsText

/-!
# The names of map entries

What a map's keys are read as. A key is printed as a string literal (`writeMapKey`), and `renderedKey` is the string this literal
stands for; two entries whose keys are read as one string become one member of the object.
-/

namespace Soroscan

section Keys

variable (scValString : ScVal → Bytes)

/-- The JSON value of the literal a key is printed as. -/
def renderedKey (k : ScVal) : Option Json := Json.parse (writeMapKey (writeVal scValString k))

/-- A key is read as the name of its entry. -/
theorem renderedKey_eq (k : ScVal) :
    renderedKey scValString k = some (.str (entryName (valJson scValString k) (writeVal scValString k))) := by
  obtain ⟨rs, hrs, hname⟩ := standsName_writeMapKey scValString k
  rw [renderedKey, hrs, hname]
  exact (Json.stands_runes rs).parse

theorem renderedKey_eq_iff {k : ScVal} {name : Text} :
    renderedKey scValString k = some (.str name) ↔ name = entryName (valJson scValString k) (writeVal scValString k) := by
  rw [renderedKey_eq]
  constructor
  · rintro ⟨⟩
    rfl
  · rintro rfl
    rfl

/-- The strings the keys of a map are read as are the names of its members. -/
theorem map_renderedKey (es : List (ScVal × ScVal)) :
    es.map (fun e => renderedKey scValString e.1) = (entriesJson scValString es).map fun m => some (.str m.1) := by
  induction es with
  | nil => rfl
  | cons e es ih =>
    obtain ⟨k, v⟩ := e
    rw [List.map_cons, ih, entriesJson, List.map_cons, renderedKey_eq]

/-- The keys of a map are read as different strings exactly when its members have different names. -/
theorem renderedKeys_nodup_iff (es : List (ScVal × ScVal)) :
    (es.map fun e => renderedKey scValString e.1).Nodup ↔ ((entriesJson scValString es).map (·.1)).Nodup := by
  have hinj : Function.Injective fun name : Text => some (Json.str name) := fun a b h => Json.str.inj (Option.some.inj h)
  rw [map_renderedKey, ← List.nodup_map_iff hinj, List.map_map]
  rfl

end Keys

end Soroscan

import Soroscan.Lemmas.Args
import Soroscan.Lemmas.ArgsText

/-!
# Stored arguments and what is read back

Whether the arguments of a call come back unchanged from the table, for every contract value a call can carry.
-/

namespace Soroscan

/-- What is read back of a value: it is rewritten, stored as text, read and put back. -/
def readBack (ids : Text → Option (BitVec 32)) (addrs : BitVec 32 → Option Text) (v : Json) : Option Json :=
  (parseArgs (Json.marshal (rewriteAddresses ids v))).map (resolvePlaceholders addrs)

/-- A well-formed value comes back unchanged exactly when no object of it reads as a placeholder. -/
theorem readBack_iff_plain {ids : Text → Option (BitVec 32)} {addrs : BitVec 32 → Option Text} {v : Json} (hok : v.Ok)
    (hnames : Names ids addrs (collectAddresses v)) : readBack ids addrs v = some v ↔ Plain v := by
  rw [readBack, parseArgs, Json.parse_marshal (rewriteAddresses_ok ids v hok), Option.map_some, Option.some.injEq]
  exact resolve_rewrite_iff v hnames

/-- A dictionary that covers some addresses, with its inverse, names them. -/
theorem names_of_inverse {ids : Text → Option (BitVec 32)} {addrs : BitVec 32 → Option Text} {as : List Text}
    (hcover : ∀ a ∈ as, (ids a).isSome = true) (hinverse : ∀ a id, addrs id = some a ↔ ids a = some id) :
    Names ids addrs as := by
  intro a ha
  obtain ⟨id, hid⟩ := Option.isSome_iff_exists.mp (hcover a ha)
  exact ⟨id, hid, (hinverse a id).mpr hid⟩

section

variable (scValString : ScVal → Bytes)

/-- The arguments of a call come back unchanged exactly when no object inside them reads as a placeholder: an object whose one
member is named `$a` and is an integer of 32 bits. The dictionary covers the addresses of the arguments, and the inverse one
leads from each id to its one address. -/
theorem stored_args_read_back_iff (data : ScVal) (v : Json) (hv : parseArgs (encodeArgs scValString data) = some v)
    (ids : Text → Option (BitVec 32)) (addrs : BitVec 32 → Option Text)
    (hcover : ∀ a ∈ collectAddresses v, (ids a).isSome = true)
    (hinverse : ∀ a id, addrs id = some a ↔ ids a = some id) :
    (parseArgs (Json.marshal (rewriteAddresses ids v))).map (resolvePlaceholders addrs) = some v ↔ Plain v := by
  rw [parseArgs_encodeArgs, Option.some.injEq] at hv
  have hok : v.Ok := hv ▸ argsJson_ok scValString data
  exact readBack_iff_plain hok (names_of_inverse hcover hinverse)

end

/-- The zero contract's address as an argument, under the id 7: it comes back. -/
theorem stored_args_read_back_address :
    let a := contractStrkey Bytes32.zero
    (parseArgs (Json.marshal (rewriteAddresses (fun s => if s = a then some 7 else none) (.arr [.str a])))).map
      (resolvePlaceholders fun id => if id = 7 then some a else none) = some (.arr [.str a]) ↔ Plain (.arr [.str a]) := by
  intro a
  refine stored_args_read_back_iff (fun _ => []) (.address (.contract Bytes32.zero)) (.arr [.str a])
    (parseArgs_encodeArgs _ _) _ _ ?_ ?_
  · intro b hb
    have hb : b = a := by
      simp only [collectAddresses, collectAddressesItems, List.append_nil] at hb
      split at hb
      · exact List.mem_singleton.mp hb
      · cases hb
    simp [hb]
  · intro b id
    by_cases hb : b = a
    · by_cases hid : id = 7 <;> simp [hb, hid, eq_comm]
    · have hne : a ≠ b := fun h => hb h.symm
      by_cases hid : id = 7 <;> simp [hb, hid, hne]

/-- The map `{"$a": 7}` as the one argument of a call. -/
def placeholderArgs : ScVal := .vec (some [.map (some [(.string [36, 97], .u32 7)])])

/-- A call with the map `{"$a": 7}` as its one argument: with no address in it, the empty dictionary covers it, and the stored
value is not read back. -/
theorem placeholder_args_not_read_back :
    ∃ (data : ScVal) (v : Json) (ids : Text → Option (BitVec 32)) (addrs : BitVec 32 → Option Text),
      parseArgs (encodeArgs (fun _ => []) data) = some v ∧ (∀ a ∈ collectAddresses v, (ids a).isSome = true) ∧
      (∀ a id, addrs id = some a ↔ ids a = some id) ∧
      (parseArgs (Json.marshal (rewriteAddresses ids v))).map (resolvePlaceholders addrs) ≠ some v := by
  refine ⟨placeholderArgs, argsJson (fun _ => []) placeholderArgs, fun _ => none, fun _ => none,
    parseArgs_encodeArgs _ _, ?_, by simp, ?_⟩
  · intro a ha
    have hnone : collectAddresses (argsJson (fun _ => []) placeholderArgs) = [] := by decide
    rw [hnone] at ha
    cases ha
  · have hnames : Names (fun _ => none) (fun _ => none) (collectAddresses (argsJson (fun _ => []) placeholderArgs)) := by
      have hnone : collectAddresses (argsJson (fun _ => []) placeholderArgs) = [] := by decide
      rw [hnone]
      intro a ha
      cases ha
    intro h
    have hplain := (readBack_iff_plain (argsJson_ok _ _) hnames).mp h
    have hid : placeholderID [(placeholderName, .num (decimal 7))] = some 7 := by decide
    have hobj : placeholderID [(placeholderName, .num (decimal 7))] = none := hplain.1.1
    rw [hid] at hobj
    cases hobj

end Soroscan

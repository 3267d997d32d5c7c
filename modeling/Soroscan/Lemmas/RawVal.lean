import Soroscan.Lemmas.ScDisplay

/-!
# The fields the reader takes

The reader of `scval.ts` does not look at all of what it takes off: a boolean may be any word, the type and the code of an error
any two words, the executable of an instance any word, and the bytes that fill up a byte string any bytes. `RawVal` is the tree
of the fields as they stand in the bytes. A tree of fields is one of a contract value exactly when it is clean.
-/

namespace Soroscan

/-- The fields of a value: a boolean, an error, a value of a fixed length, a byte string with the bytes behind it, and the values
that have parts. -/
inductive RawVal where
  | bool (word : BitVec 32)
  | error (type code : BitVec 32)
  | fixed (type : BitVec 32) (data : Bytes)
  | opaqueData (type : BitVec 32) (data padding : Bytes)
  | vec (items : Option (List RawVal))
  | map (entries : Option (List (RawVal × RawVal)))
  | address (a : ScAddress)
  | contractInstance (kind : BitVec 32) (hash : Bytes) (storage : Option (List (RawVal × RawVal)))
  deriving Repr

namespace RawVal

mutual

/-- The bytes that the fields stand in. -/
def bytes : RawVal → Bytes
  | .bool word => wordBytes32 0 ++ wordBytes32 word
  | .error type code => wordBytes32 2 ++ (wordBytes32 type ++ wordBytes32 code)
  | .fixed type data => wordBytes32 type ++ data
  | .opaqueData type data padding => wordBytes32 type ++ (countBytes data.length ++ (data ++ padding))
  | .vec none => wordBytes32 16 ++ wordBytes32 0
  | .vec (some items) => wordBytes32 16 ++ (wordBytes32 1 ++ (countBytes items.length ++ bytesOfItems items))
  | .map none => wordBytes32 17 ++ wordBytes32 0
  | .map (some entries) => wordBytes32 17 ++ (wordBytes32 1 ++ (countBytes entries.length ++ bytesOfEntries entries))
  | .address a => wordBytes32 18 ++ a.toXdr
  | .contractInstance kind hash none => wordBytes32 19 ++ (wordBytes32 kind ++ (hash ++ wordBytes32 0))
  | .contractInstance kind hash (some storage) =>
    wordBytes32 19 ++ (wordBytes32 kind ++ (hash ++ (wordBytes32 1 ++ (countBytes storage.length ++ bytesOfEntries storage))))

/-- The bytes of the items of a vector, one after the other. -/
def bytesOfItems : List RawVal → Bytes
  | [] => []
  | w :: ws => bytes w ++ bytesOfItems ws

/-- The bytes of the entries of a map, each key before its value. -/
def bytesOfEntries : List (RawVal × RawVal) → Bytes
  | [] => []
  | (k, w) :: es => (bytes k ++ bytes w) ++ bytesOfEntries es

end

/-- The fields that stand directly inside others. -/
def parts : RawVal → List RawVal
  | .vec (some items) => items
  | .map (some entries) => entries.flatMap fun e => [e.1, e.2]
  | .contractInstance _ _ (some storage) => storage.flatMap fun e => [e.1, e.2]
  | _ => []

/-- `u` stands in `w`, with `depth` vectors, maps and contract instances around it. -/
inductive Inside : Nat → RawVal → RawVal → Prop
  | self (w : RawVal) : Inside 0 w w
  | part {depth : Nat} {w part u : RawVal} (hpart : part ∈ w.parts) (h : Inside depth part u) : Inside (depth + 1) w u

/-- The lengths of the types of a fixed length, booleans and errors left out. -/
def fixedLength : Nat → Option Nat
  | 1 | 20 => some 0
  | 3 | 4 => some 4
  | 5 | 6 | 7 | 8 | 21 => some 8
  | 9 | 10 => some 16
  | 11 | 12 => some 32
  | _ => none

/-- The length of the hash behind the kind of an executable: only a first one has one. -/
def hashLength (kind : BitVec 32) : Nat := if kind = 0 then 32 else 0

/-- The fields have the lengths that the layout gives them. -/
def Shaped : RawVal → Prop
  | .fixed type data => fixedLength type.toNat = some data.length
  | .opaqueData type data padding =>
    (type = 13 ∨ type = 14 ∨ type = 15) ∧ data.length < 2 ^ 32 ∧ padding.length = (4 - data.length % 4) % 4
  | .vec items => ∀ ws ∈ items, ws.length < 2 ^ 32
  | .map entries => ∀ es ∈ entries, es.length < 2 ^ 32
  | .contractInstance kind hash storage => hash.length = hashLength kind ∧ ∀ es ∈ storage, es.length < 2 ^ 32
  | _ => True

/-- A symbol is a valid one. -/
def Named : RawVal → Prop
  | .opaqueData type data _ => type = 15 → ScReader.validSymbol data = true
  | _ => True

/-- The fields the reader takes without looking are what the layout has there: a boolean is zero or one, an error is a contract's
or has a type and a code of the host, the executable is of one of two kinds, and byte strings are filled up with zeros. -/
def Clean : RawVal → Prop
  | .bool word => word = 0 ∨ word = 1
  | .error type code => type = 0 ∨ type.toNat ≤ 9 ∧ code.toNat ≤ 9
  | .opaqueData _ _ padding => ∀ b ∈ padding, b = 0
  | .contractInstance kind _ _ => kind = 0 ∨ kind = 1
  | _ => True

/-- A property of all the fields of a tree that is not too deep. -/
def EveryPart (P : RawVal → Prop) : Nat → RawVal → Prop
  | 0, _ => False
  | levels + 1, w => P w ∧ ∀ part ∈ w.parts, EveryPart P levels part

/-- Every field inside a value, at any depth. -/
theorem everyPart_iff {P : RawVal → Prop} {levels : Nat} {w : RawVal} :
    EveryPart P (levels + 1) w ↔ ∀ depth u, Inside depth w u → depth ≤ levels ∧ P u := by
  induction levels generalizing w with
  | zero =>
    constructor
    · rintro ⟨hw, hparts⟩ depth u h
      cases h with
      | self => exact ⟨le_rfl, hw⟩
      | part hpart h => exact (hparts _ hpart).elim
    · intro h
      refine ⟨(h 0 w (.self w)).2, fun part hpart => ?_⟩
      exact absurd (h 1 part (.part hpart (.self part))).1 (by decide)
  | succ levels ih =>
    constructor
    · rintro ⟨hw, hparts⟩ depth u h
      cases h with
      | self => exact ⟨Nat.zero_le _, hw⟩
      | part hpart h =>
        obtain ⟨hle, hu⟩ := ih.mp (hparts _ hpart) _ _ h
        exact ⟨Nat.succ_le_succ hle, hu⟩
    · intro h
      refine ⟨(h 0 w (.self w)).2, fun part hpart => ih.mpr fun depth u hu => ?_⟩
      obtain ⟨hle, hP⟩ := h (depth + 1) u (.part hpart hu)
      exact ⟨Nat.le_of_succ_le_succ hle, hP⟩

/-- What every field has, every field has that follows from it. -/
theorem EveryPart.imp {P Q : RawVal → Prop} (h : ∀ w, P w → Q w) {levels : Nat} {w : RawVal} (hw : EveryPart P levels w) :
    EveryPart Q levels w := by
  induction levels generalizing w with
  | zero => exact hw
  | succ levels ih => exact ⟨h w hw.1, fun part hpart => ih (hw.2 part hpart)⟩

theorem bytesOfItems_eq (ws : List RawVal) : bytesOfItems ws = ws.flatMap bytes := by
  induction ws with
  | nil => rfl
  | cons w ws ih => rw [bytesOfItems, ih, List.flatMap_cons]

theorem bytesOfEntries_eq (es : List (RawVal × RawVal)) : bytesOfEntries es = es.flatMap fun e => e.1.bytes ++ e.2.bytes := by
  induction es with
  | nil => rfl
  | cons e es ih => rw [bytesOfEntries, ih, List.flatMap_cons]

/-! ## The words -/

/-- A word is determined by its bytes. -/
theorem wordBytes32_injective {v w : BitVec 32} (h : wordBytes32 v = wordBytes32 w) : v = w := by
  have hv := (ScReader.parses_u32 v).run
  rw [h, (ScReader.parses_u32 w).run] at hv
  exact (Option.some.inj hv).symm

/-- A word at the front of bytes is determined, with what follows it. -/
theorem wordBytes32_append_inj {v w : BitVec 32} {t t' : Bytes} (h : wordBytes32 v ++ t = wordBytes32 w ++ t') : v = w ∧ t = t' := by
  obtain ⟨hword, hrest⟩ := List.append_inj h rfl
  exact ⟨wordBytes32_injective hword, hrest⟩

/-- A count is determined by the bytes it is written in, whatever stands behind them. -/
theorem countBytes_append_inj {m n : Nat} (hm : m < 2 ^ 32) (hn : n < 2 ^ 32) {t t' : Bytes}
    (h : countBytes m ++ t = countBytes n ++ t') : m = n ∧ t = t' := by
  obtain ⟨hword, hrest⟩ := wordBytes32_append_inj h
  refine ⟨?_, hrest⟩
  rw [← ScReader.toNat_uint32_of_lt hm, hword, ScReader.toNat_uint32_of_lt hn]

/-! ## One tree of fields -/

/-- The type of a value, the word its bytes begin with. -/
def typeWord : RawVal → BitVec 32
  | .bool _ => 0
  | .error _ _ => 2
  | .fixed type _ => type
  | .opaqueData type _ _ => type
  | .vec _ => 16
  | .map _ => 17
  | .address _ => 18
  | .contractInstance _ _ _ => 19

/-- The bytes of an optional list of items: a flag, and the items behind their count. -/
def listBytes {α : Type} (encode : α → Bytes) : Option (List α) → Bytes
  | none => wordBytes32 0
  | some as => wordBytes32 1 ++ (countBytes as.length ++ as.flatMap encode)

/-- The bytes of a key and of its value. -/
def entryBytes (e : RawVal × RawVal) : Bytes := e.1.bytes ++ e.2.bytes

/-- The bytes behind the type. -/
def body : RawVal → Bytes
  | .bool word => wordBytes32 word
  | .error type code => wordBytes32 type ++ wordBytes32 code
  | .fixed _ data => data
  | .opaqueData _ data padding => countBytes data.length ++ (data ++ padding)
  | .vec items => listBytes bytes items
  | .map entries => listBytes entryBytes entries
  | .address a => a.toXdr
  | .contractInstance kind hash storage => wordBytes32 kind ++ (hash ++ listBytes entryBytes storage)

/-- A value begins with the word of its type. -/
theorem bytes_eq (w : RawVal) : w.bytes = wordBytes32 w.typeWord ++ w.body := by
  cases w with
  | vec items => cases items <;> simp only [bytes, typeWord, body, listBytes, bytesOfItems_eq]
  | map entries =>
    cases entries
    · rfl
    · rw [bytes, bytesOfEntries_eq]
      rfl
  | contractInstance kind hash storage =>
    cases storage
    · rfl
    · rw [bytes, bytesOfEntries_eq]
      rfl
  | _ => rfl

/-- The kinds of fields. -/
inductive Kind where
  | bool | error | fixed | opaqueData | vec | map | address | contractInstance

/-- The kind of the fields of a type. -/
def kindOfType : Nat → Kind
  | 0 => .bool
  | 2 => .error
  | 13 | 14 | 15 => .opaqueData
  | 16 => .vec
  | 17 => .map
  | 18 => .address
  | 19 => .contractInstance
  | _ => .fixed

/-- The shape that a field has. -/
def kind : RawVal → Kind
  | .bool _ => .bool
  | .error _ _ => .error
  | .fixed _ _ => .fixed
  | .opaqueData _ _ _ => .opaqueData
  | .vec _ => .vec
  | .map _ => .map
  | .address _ => .address
  | .contractInstance _ _ _ => .contractInstance

/-- The types of a fixed length are of the kind with one. -/
theorem kindOfType_fixed {type length : Nat} (h : fixedLength type = some length) : kindOfType type = .fixed := by
  unfold fixedLength at h
  split at h <;> first | rfl | cases h

/-- The type of a field names the kind of it. -/
theorem kindOfType_typeWord {w : RawVal} (hw : w.Shaped) : kindOfType w.typeWord.toNat = w.kind := by
  cases w with
  | fixed type data => exact kindOfType_fixed hw
  | opaqueData type data padding => obtain ⟨rfl | rfl | rfl, -⟩ := hw <;> rfl
  | _ => rfl

/-- Every field of the tree has the length that the layout gives it. -/
def AllShaped (w : RawVal) : Prop := ∀ depth u, Inside depth w u → u.Shaped

/-- The fields of a well-shaped value are well shaped. -/
theorem AllShaped.part {w part : RawVal} (h : w.AllShaped) (hpart : part ∈ w.parts) : part.AllShaped :=
  fun _ u hu => h _ u (.part hpart hu)

theorem AllShaped.self {w : RawVal} (h : w.AllShaped) : w.Shaped := h 0 w (.self w)

/-- Items that are determined one by one are determined together. -/
theorem flatMap_append_inj {α : Type} {encode : α → Bytes} {as as' : List α} {t t' : Bytes} (hlength : as.length = as'.length)
    (hinj : ∀ a ∈ as, ∀ a' ∈ as', ∀ t t', encode a ++ t = encode a' ++ t' → a = a' ∧ t = t')
    (h : as.flatMap encode ++ t = as'.flatMap encode ++ t') : as = as' ∧ t = t' := by
  induction as generalizing as' with
  | nil =>
    cases as' with
    | nil => exact ⟨rfl, h⟩
    | cons a' as' => cases hlength
  | cons a as ih =>
    cases as' with
    | nil => cases hlength
    | cons a' as' =>
      rw [List.flatMap_cons, List.flatMap_cons, List.append_assoc, List.append_assoc] at h
      obtain ⟨rfl, h'⟩ := hinj a List.mem_cons_self a' List.mem_cons_self _ _ h
      obtain ⟨rfl, ht⟩ := ih (Nat.succ_inj.mp hlength)
        (fun b hb b' hb' => hinj b (List.mem_cons_of_mem _ hb) b' (List.mem_cons_of_mem _ hb')) h'
      exact ⟨rfl, ht⟩

/-- A list that may be absent is determined by its bytes when its items are by theirs. -/
theorem listBytes_append_inj {α : Type} {encode : α → Bytes} {o o' : Option (List α)} {t t' : Bytes}
    (hsize : ∀ as ∈ o, as.length < 2 ^ 32) (hsize' : ∀ as ∈ o', as.length < 2 ^ 32)
    (hinj : ∀ as ∈ o, ∀ a ∈ as, ∀ as' ∈ o', ∀ a' ∈ as', ∀ t t', encode a ++ t = encode a' ++ t' → a = a' ∧ t = t')
    (h : listBytes encode o ++ t = listBytes encode o' ++ t') : o = o' ∧ t = t' := by
  cases o with
  | none =>
    cases o' with
    | none => exact ⟨rfl, List.append_cancel_left h⟩
    | some as' =>
      rw [listBytes, listBytes, List.append_assoc] at h
      exact absurd (wordBytes32_append_inj h).1 (by decide)
  | some as =>
    cases o' with
    | none =>
      rw [listBytes, listBytes, List.append_assoc] at h
      exact absurd (wordBytes32_append_inj h).1 (by decide)
    | some as' =>
      simp only [listBytes, List.append_assoc] at h
      obtain ⟨-, hcount⟩ := wordBytes32_append_inj h
      obtain ⟨hlength, hitems⟩ := countBytes_append_inj (hsize as rfl) (hsize' as' rfl) hcount
      obtain ⟨rfl, ht⟩ := flatMap_append_inj hlength (fun a ha a' ha' => hinj as rfl a ha as' rfl a' ha') hitems
      exact ⟨rfl, ht⟩

/-- A string of 32 bytes is determined by them, whatever stands behind. -/
theorem bytes32_append_inj {a a' : Bytes32} {t t' : Bytes} (h : a.bytes ++ t = a'.bytes ++ t') : a = a' ∧ t = t' := by
  obtain ⟨hbytes, ht⟩ := List.append_inj h (a.length_eq.trans a'.length_eq.symm)
  refine ⟨?_, ht⟩
  cases a
  cases a'
  cases hbytes
  rfl

/-- The bytes of a 64-bit word are determined. -/
theorem wordBytes_append_inj {v w : BitVec 64} {t t' : Bytes} (h : wordBytes v ++ t = wordBytes w ++ t') : v = w ∧ t = t' := by
  obtain ⟨hword, ht⟩ := List.append_inj h rfl
  have hv := (ScReader.parses_u64 v).run
  rw [hword, (ScReader.parses_u64 w).run] at hv
  exact ⟨BitVec.eq_of_toNat_eq (Option.some.inj hv).symm, ht⟩

/-- An address is determined by its bytes, whatever stands behind. -/
theorem address_append_inj {a a' : ScAddress} {t t' : Bytes} (h : a.toXdr ++ t = a'.toXdr ++ t') : a = a' ∧ t = t' := by
  cases a <;> cases a' <;> simp only [ScAddress.toXdr, List.append_assoc] at h <;>
    obtain ⟨hkind, hrest⟩ := wordBytes32_append_inj h <;> first | exact absurd hkind (by decide) | skip
  · obtain ⟨-, hkey⟩ := wordBytes32_append_inj hrest
    obtain ⟨rfl, ht⟩ := bytes32_append_inj hkey
    exact ⟨rfl, ht⟩
  · obtain ⟨rfl, ht⟩ := bytes32_append_inj hrest
    exact ⟨rfl, ht⟩
  · obtain ⟨rfl, hkey⟩ := wordBytes_append_inj hrest
    obtain ⟨rfl, ht⟩ := bytes32_append_inj hkey
    exact ⟨rfl, ht⟩
  · obtain ⟨-, hhash⟩ := wordBytes32_append_inj hrest
    obtain ⟨rfl, ht⟩ := bytes32_append_inj hhash
    exact ⟨rfl, ht⟩
  · obtain ⟨rfl, ht⟩ := bytes32_append_inj hrest
    exact ⟨rfl, ht⟩

/-- An entry is determined by its bytes when its key and its value are. -/
theorem entryBytes_append_inj {e e' : RawVal × RawVal} {t t' : Bytes}
    (hinj : ∀ p ∈ [e.1, e.2], ∀ p' ∈ [e'.1, e'.2], ∀ t t', p.bytes ++ t = p'.bytes ++ t' → p = p' ∧ t = t')
    (h : entryBytes e ++ t = entryBytes e' ++ t') : e = e' ∧ t = t' := by
  rw [entryBytes, entryBytes, List.append_assoc, List.append_assoc] at h
  obtain ⟨hkey, hrest⟩ := hinj e.1 List.mem_cons_self e'.1 List.mem_cons_self _ _ h
  obtain ⟨hvalue, ht⟩ :=
    hinj e.2 (List.mem_cons_of_mem _ List.mem_cons_self) e'.2 (List.mem_cons_of_mem _ List.mem_cons_self) _ _ hrest
  exact ⟨Prod.ext hkey hvalue, ht⟩

/-- The entries of a map or of an instance are determined when their keys and values are. -/
theorem entries_append_inj {o o' : Option (List (RawVal × RawVal))} {t t' : Bytes}
    (hsize : ∀ es ∈ o, es.length < 2 ^ 32) (hsize' : ∀ es ∈ o', es.length < 2 ^ 32)
    (hinj : ∀ es ∈ o, ∀ p ∈ es.flatMap fun e => [e.1, e.2], ∀ es' ∈ o', ∀ p' ∈ es'.flatMap fun e => [e.1, e.2],
      ∀ t t', p.bytes ++ t = p'.bytes ++ t' → p = p' ∧ t = t')
    (h : listBytes entryBytes o ++ t = listBytes entryBytes o' ++ t') : o = o' ∧ t = t' := by
  refine listBytes_append_inj hsize hsize' (fun es hes e he es' hes' e' he' t t' => ?_) h
  refine entryBytes_append_inj fun p hp p' hp' => hinj es hes p ?_ es' hes' p' ?_
  · exact List.mem_flatMap.mpr ⟨e, he, hp⟩
  · exact List.mem_flatMap.mpr ⟨e', he', hp'⟩

/-- Bytes begin with one tree of fields at most. -/
theorem bytes_append_inj {levels : Nat} : ∀ {w w' : RawVal} {t t' : Bytes}, EveryPart Shaped levels w → w'.AllShaped →
    w.bytes ++ t = w'.bytes ++ t' → w = w' ∧ t = t' := by
  induction levels with
  | zero => exact fun hw => hw.elim
  | succ levels ih =>
    intro w w' t t' hw hw' h
    have hpart : ∀ p ∈ w.parts, ∀ p' ∈ w'.parts, ∀ t t', p.bytes ++ t = p'.bytes ++ t' → p = p' ∧ t = t' :=
      fun p hp p' hp' t t' => ih (hw.2 p hp) (hw'.part hp')
    have hshape := hw.1
    have hshape' := hw'.self
    rw [bytes_eq, bytes_eq, List.append_assoc, List.append_assoc] at h
    obtain ⟨htype, hbody⟩ := wordBytes32_append_inj h
    have hkind : w.kind = w'.kind := by rw [← kindOfType_typeWord hshape, htype, kindOfType_typeWord hshape']
    clear h hw hw' ih
    cases w <;> cases w' <;> simp only [kind, reduceCtorEq] at hkind
    case bool.bool word word' =>
      obtain ⟨rfl, ht⟩ := wordBytes32_append_inj hbody
      exact ⟨rfl, ht⟩
    case error.error type code type' code' =>
      rw [body, body, List.append_assoc, List.append_assoc] at hbody
      obtain ⟨rfl, hcode⟩ := wordBytes32_append_inj hbody
      obtain ⟨rfl, ht⟩ := wordBytes32_append_inj hcode
      exact ⟨rfl, ht⟩
    case fixed.fixed type data type' data' =>
      obtain rfl : type = type' := htype
      obtain ⟨rfl, ht⟩ := List.append_inj hbody (Option.some.inj (hshape.symm.trans hshape'))
      exact ⟨rfl, ht⟩
    case opaqueData.opaqueData type data padding type' data' padding' =>
      obtain rfl : type = type' := htype
      simp only [body, List.append_assoc] at hbody
      obtain ⟨hlength, hdata⟩ := countBytes_append_inj hshape.2.1 hshape'.2.1 hbody
      obtain ⟨rfl, hpadding⟩ := List.append_inj hdata hlength
      obtain ⟨rfl, ht⟩ := List.append_inj hpadding (hshape.2.2.trans hshape'.2.2.symm)
      exact ⟨rfl, ht⟩
    case vec.vec items items' =>
      have hinj : ∀ as ∈ items, ∀ p ∈ as, ∀ as' ∈ items', ∀ p' ∈ as', ∀ t t', p.bytes ++ t = p'.bytes ++ t' →
          p = p' ∧ t = t' := by
        rintro as ⟨⟩ p hp as' ⟨⟩ p' hp'
        exact hpart p hp p' hp'
      obtain ⟨rfl, ht⟩ := listBytes_append_inj hshape hshape' hinj hbody
      exact ⟨rfl, ht⟩
    case map.map entries entries' =>
      have hinj : ∀ es ∈ entries, ∀ p ∈ es.flatMap fun e => [e.1, e.2], ∀ es' ∈ entries',
          ∀ p' ∈ es'.flatMap fun e => [e.1, e.2], ∀ t t', p.bytes ++ t = p'.bytes ++ t' → p = p' ∧ t = t' := by
        rintro es ⟨⟩ p hp es' ⟨⟩ p' hp'
        exact hpart p hp p' hp'
      obtain ⟨rfl, ht⟩ := entries_append_inj hshape hshape' hinj hbody
      exact ⟨rfl, ht⟩
    case address.address a a' =>
      obtain ⟨rfl, ht⟩ := address_append_inj hbody
      exact ⟨rfl, ht⟩
    case contractInstance.contractInstance kind hash storage kind' hash' storage' =>
      simp only [body, List.append_assoc] at hbody
      obtain ⟨rfl, hhash⟩ := wordBytes32_append_inj hbody
      obtain ⟨rfl, hstorage⟩ := List.append_inj hhash (hshape.1.trans hshape'.1.symm)
      have hinj : ∀ es ∈ storage, ∀ p ∈ es.flatMap fun e => [e.1, e.2], ∀ es' ∈ storage',
          ∀ p' ∈ es'.flatMap fun e => [e.1, e.2], ∀ t t', p.bytes ++ t = p'.bytes ++ t' → p = p' ∧ t = t' := by
        rintro es ⟨⟩ p hp es' ⟨⟩ p' hp'
        exact hpart p hp p' hp'
      obtain ⟨rfl, ht⟩ := entries_append_inj hshape.2 hshape'.2 hinj hstorage
      exact ⟨rfl, ht⟩

/-! ## The fields of a contract value -/

/-- The zeros behind a byte string. -/
def zeros (b : Bytes) : Bytes := List.replicate ((4 - b.length % 4) % 4) 0

/-- The fields of an error. -/
def ofScError : ScError → RawVal
  | .contract code => .error 0 code
  | .other type code => .error (uint32 type.number) (uint32 code.number)

/-- The word of an executable, and the hash behind it. -/
def executableFields : ContractExecutable → BitVec 32 × Bytes
  | .wasm hash => (0, hash.bytes)
  | .stellarAsset => (1, [])

mutual

/-- The fields that a contract value is written in. -/
def ofScVal : ScVal → RawVal
  | .bool b => .bool (if b then 1 else 0)
  | .void => .fixed 1 []
  | .error e => ofScError e
  | .u32 v => .fixed 3 (wordBytes32 v)
  | .i32 v => .fixed 4 (wordBytes32 v)
  | .u64 v => .fixed 5 (wordBytes v)
  | .i64 v => .fixed 6 (wordBytes v)
  | .timepoint v => .fixed 7 (wordBytes v)
  | .duration v => .fixed 8 (wordBytes v)
  | .u128 hi lo => .fixed 9 (wordBytes hi ++ wordBytes lo)
  | .i128 hi lo => .fixed 10 (wordBytes hi ++ wordBytes lo)
  | .u256 hiHi hiLo loHi loLo => .fixed 11 (wordBytes hiHi ++ (wordBytes hiLo ++ (wordBytes loHi ++ wordBytes loLo)))
  | .i256 hiHi hiLo loHi loLo => .fixed 12 (wordBytes hiHi ++ (wordBytes hiLo ++ (wordBytes loHi ++ wordBytes loLo)))
  | .bytes b => .opaqueData 13 b (zeros b)
  | .string s => .opaqueData 14 s (zeros s)
  | .symbol s => .opaqueData 15 s (zeros s)
  | .vec none => .vec none
  | .vec (some items) => .vec (some (ofItems items))
  | .map none => .map none
  | .map (some entries) => .map (some (ofEntries entries))
  | .address a => .address a
  | .contractInstance executable none => .contractInstance (executableFields executable).1 (executableFields executable).2 none
  | .contractInstance executable (some storage) =>
    .contractInstance (executableFields executable).1 (executableFields executable).2 (some (ofEntries storage))
  | .ledgerKeyContractInstance => .fixed 20 []
  | .ledgerKeyNonce nonce => .fixed 21 (wordBytes nonce)

/-- The items of a vector as fields. -/
def ofItems : List ScVal → List RawVal
  | [] => []
  | v :: vs => ofScVal v :: ofItems vs

/-- The entries of a map as fields. -/
def ofEntries : List (ScVal × ScVal) → List (RawVal × RawVal)
  | [] => []
  | (k, v) :: es => (ofScVal k, ofScVal v) :: ofEntries es

end

/-- The fields of a key and of its value. -/
def ofEntry (e : ScVal × ScVal) : RawVal × RawVal := (ofScVal e.1, ofScVal e.2)

theorem ofItems_eq (vs : List ScVal) : ofItems vs = vs.map ofScVal := by
  induction vs with
  | nil => rfl
  | cons v vs ih => rw [ofItems, ih, List.map_cons]

theorem ofEntries_eq (es : List (ScVal × ScVal)) : ofEntries es = es.map ofEntry := by
  induction es with
  | nil => rfl
  | cons e es ih =>
    rw [ofEntries, ih, List.map_cons]
    rfl

theorem parts_entries (es : List (ScVal × ScVal)) :
    ((es.map ofEntry).flatMap fun e => [e.1, e.2]) = (es.flatMap fun e => [e.1, e.2]).map ofScVal := by
  induction es with
  | nil => rfl
  | cons e es ih =>
    rw [List.map_cons, List.flatMap_cons, List.flatMap_cons, List.map_append, ih]
    rfl

/-- The fields of a contract value are its parts. -/
theorem parts_ofScVal (v : ScVal) : (ofScVal v).parts = v.parts.map ofScVal := by
  cases v with
  | error e => cases e <;> rfl
  | vec items =>
    cases items
    · rfl
    · rw [ofScVal, ofItems_eq]
      rfl
  | map entries =>
    cases entries
    · rfl
    · rw [ofScVal, ofEntries_eq]
      exact parts_entries _
  | contractInstance executable storage =>
    cases storage
    · rfl
    · rw [ofScVal, ofEntries_eq]
      exact parts_entries _
  | _ => rfl

/-- What stands in the fields of a value are the fields of what stands in it. -/
theorem inside_ofScVal {depth : Nat} {w u : RawVal} (h : Inside depth w u) :
    ∀ v, w = ofScVal v → ∃ v', ScVal.Inside depth v v' ∧ u = ofScVal v' := by
  induction h with
  | self w => exact fun v hv => ⟨v, .self v, hv⟩
  | part hpart _ ih =>
    rintro v rfl
    rw [parts_ofScVal] at hpart
    obtain ⟨part, hmem, rfl⟩ := List.mem_map.mp hpart
    obtain ⟨v', hinside, hu⟩ := ih part rfl
    exact ⟨v', .part hmem hinside, hu⟩

/-- What stands inside a contract value stands inside its fields. -/
theorem inside_ofScVal_of_inside {depth : Nat} {v v' : ScVal} (h : ScVal.Inside depth v v') :
    Inside depth (ofScVal v) (ofScVal v') := by
  induction h with
  | self v => exact .self _
  | part hpart _ ih =>
    refine .part ?_ ih
    rw [parts_ofScVal]
    exact List.mem_map_of_mem hpart

/-- An executable is written as its kind and its hash. -/
theorem executable_toXdr (executable : ContractExecutable) :
    executable.toXdr = wordBytes32 (executableFields executable).1 ++ (executableFields executable).2 := by
  cases executable <;> rfl

mutual

/-- The bytes of the fields are the XDR of the value. -/
theorem bytes_ofScVal : ∀ v : ScVal, (ofScVal v).bytes = v.toXdr
  | .error (.contract _) => rfl
  | .error (.other _ _) => rfl
  | .vec (some items) => by
    rw [ofScVal, bytes, ScVal.toXdr, bytes_ofItems items, ofItems_eq, List.length_map]
  | .map (some entries) => by
    rw [ofScVal, bytes, ScVal.toXdr, bytes_ofEntries entries, ofEntries_eq, List.length_map]
  | .contractInstance executable none => by
    rw [ofScVal, bytes, ScVal.toXdr, executable_toXdr, List.append_assoc]
  | .contractInstance executable (some storage) => by
    rw [ofScVal, bytes, ScVal.toXdr, bytes_ofEntries storage, ofEntries_eq, List.length_map, executable_toXdr,
      List.append_assoc]
  | .bool _ | .void | .u32 _ | .i32 _ | .u64 _ | .i64 _ | .timepoint _ | .duration _ | .u128 _ _ | .i128 _ _
  | .u256 _ _ _ _ | .i256 _ _ _ _ | .bytes _ | .string _ | .symbol _ | .vec none | .map none | .address _
  | .ledgerKeyNonce _ => rfl
  | .ledgerKeyContractInstance => rfl

/-- The same of the items of a vector. -/
theorem bytes_ofItems : ∀ vs : List ScVal, bytesOfItems (ofItems vs) = ScVal.itemsToXdr vs
  | [] => rfl
  | v :: vs => by rw [ofItems, bytesOfItems, ScVal.itemsToXdr, bytes_ofScVal v, bytes_ofItems vs]

/-- The same of the entries of a map. -/
theorem bytes_ofEntries : ∀ es : List (ScVal × ScVal), bytesOfEntries (ofEntries es) = ScVal.entriesToXdr es
  | [] => rfl
  | (k, v) :: es => by
    rw [ofEntries, bytesOfEntries, ScVal.entriesToXdr, bytes_ofScVal k, bytes_ofScVal v, bytes_ofEntries es]

end

/-- The fields of a value that fits its words are well shaped. -/
theorem shaped_ofScVal {v : ScVal} (hv : v.fitsWords = true) : (ofScVal v).Shaped := by
  cases v with
  | error e => cases e <;> trivial
  | bytes b => exact ⟨.inl rfl, of_decide_eq_true hv, List.length_replicate⟩
  | string s => exact ⟨.inr (.inl rfl), of_decide_eq_true hv, List.length_replicate⟩
  | symbol s => exact ⟨.inr (.inr rfl), of_decide_eq_true hv, List.length_replicate⟩
  | vec items =>
    cases items
    · rintro ws ⟨⟩
    · rw [ofScVal, ofItems_eq]
      rintro ws ⟨⟩
      rw [List.length_map]
      exact of_decide_eq_true hv
  | map entries =>
    cases entries
    · rintro es ⟨⟩
    · rw [ofScVal, ofEntries_eq]
      rintro es ⟨⟩
      rw [List.length_map]
      exact of_decide_eq_true hv
  | contractInstance executable storage =>
    have hhash : (executableFields executable).2.length = hashLength (executableFields executable).1 := by
      cases executable with
      | wasm hash => exact hash.length_eq
      | stellarAsset => rfl
    cases storage
    · refine ⟨hhash, ?_⟩
      rintro es ⟨⟩
    · rw [ofScVal, ofEntries_eq]
      refine ⟨hhash, ?_⟩
      rintro es ⟨⟩
      rw [List.length_map]
      exact of_decide_eq_true hv
  | bool _ => trivial
  | address _ => trivial
  | _ => rfl

/-- The fields of a contract value use what the format leaves free as the format writes it. -/
theorem clean_ofScVal (v : ScVal) : (ofScVal v).Clean := by
  have hzeros : ∀ b : Bytes, ∀ x ∈ zeros b, x = 0 := fun _ _ hx => (List.mem_replicate.mp hx).2
  cases v with
  | bool b =>
    cases b
    · exact .inl rfl
    · exact .inr rfl
  | error e =>
    cases e with
    | contract code => exact .inl rfl
    | other type code =>
      have htype : type.number ≤ 9 := by cases type <;> decide
      have hcode : code.number ≤ 9 := by cases code <;> decide
      refine .inr ⟨?_, ?_⟩
      · rwa [ScReader.toNat_uint32_of_lt (by omega)]
      · rwa [ScReader.toNat_uint32_of_lt (by omega)]
  | bytes b => exact hzeros b
  | string s => exact hzeros s
  | symbol s => exact hzeros s
  | vec items => cases items <;> trivial
  | map entries => cases entries <;> trivial
  | contractInstance executable storage =>
    have hkind : (executableFields executable).1 = 0 ∨ (executableFields executable).1 = 1 := by
      cases executable
      · exact .inl rfl
      · exact .inr rfl
    cases storage <;> exact hkind
  | _ => trivial

/-! ## The contract value of clean fields -/

/-- Four bytes are those of a word. -/
theorem exists_wordBytes32 {data : Bytes} (h : data.length = 4) : ∃ w, data = wordBytes32 w := exists_word h

/-- Eight bytes are those of a long word. -/
theorem exists_wordBytes {data : Bytes} (h : data.length = 8) : ∃ w, data = wordBytes w := exists_word h

theorem exists_wordBytes_append {data : Bytes} {n : Nat} (h : data.length = 8 + n) :
    ∃ w rest, data = wordBytes w ++ rest ∧ rest.length = n := by
  obtain ⟨w, hw⟩ := exists_wordBytes (show (data.take 8).length = 8 by rw [List.length_take]; omega)
  refine ⟨w, data.drop 8, ?_, ?_⟩
  · rw [← hw, List.take_append_drop]
  · rw [List.length_drop]
    omega

/-- Sixteen bytes are those of two long words. -/
theorem exists_two_words {data : Bytes} (h : data.length = 16) : ∃ hi lo, data = wordBytes hi ++ wordBytes lo := by
  obtain ⟨hi, rest, rfl, hrest⟩ := exists_wordBytes_append (show data.length = 8 + 8 from h)
  obtain ⟨lo, rfl⟩ := exists_wordBytes hrest
  exact ⟨hi, lo, rfl⟩

/-- Thirty-two bytes are those of four long words. -/
theorem exists_four_words {data : Bytes} (h : data.length = 32) :
    ∃ hiHi hiLo loHi loLo, data = wordBytes hiHi ++ (wordBytes hiLo ++ (wordBytes loHi ++ wordBytes loLo)) := by
  obtain ⟨hiHi, rest, rfl, hrest⟩ := exists_wordBytes_append (show data.length = 8 + 24 from h)
  obtain ⟨hiLo, low, rfl, hlow⟩ := exists_wordBytes_append (show rest.length = 8 + 16 from hrest)
  obtain ⟨loHi, loLo, rfl⟩ := exists_two_words hlow
  exact ⟨hiHi, hiLo, loHi, loLo, rfl⟩

/-- The fields of a fixed length are those of a value. -/
theorem exists_ofScVal_fixed {type : BitVec 32} {data : Bytes} (h : (fixed type data).Shaped) :
    ∃ v : ScVal, v.parts = [] ∧ v.fitsWords = true ∧ ofScVal v = .fixed type data := by
  have htype : ∀ n, type.toNat = n → type = BitVec.ofNat 32 n := by
    rintro n rfl
    exact BitVec.eq_of_toNat_eq (by rw [BitVec.toNat_ofNat, Nat.mod_eq_of_lt type.isLt])
  have hlength : fixedLength type.toNat = some data.length := h
  unfold fixedLength at hlength
  split at hlength
  · next ht =>
    obtain rfl := htype 1 ht
    obtain rfl : data = [] := List.length_eq_zero_iff.mp (Option.some.inj hlength).symm
    exact ⟨.void, rfl, rfl, rfl⟩
  · next ht =>
    obtain rfl := htype 20 ht
    obtain rfl : data = [] := List.length_eq_zero_iff.mp (Option.some.inj hlength).symm
    exact ⟨.ledgerKeyContractInstance, rfl, rfl, rfl⟩
  · next ht =>
    obtain rfl := htype 3 ht
    obtain ⟨w, rfl⟩ := exists_wordBytes32 (Option.some.inj hlength).symm
    exact ⟨.u32 w, rfl, rfl, rfl⟩
  · next ht =>
    obtain rfl := htype 4 ht
    obtain ⟨w, rfl⟩ := exists_wordBytes32 (Option.some.inj hlength).symm
    exact ⟨.i32 w, rfl, rfl, rfl⟩
  · next ht =>
    obtain rfl := htype 5 ht
    obtain ⟨w, rfl⟩ := exists_wordBytes (Option.some.inj hlength).symm
    exact ⟨.u64 w, rfl, rfl, rfl⟩
  · next ht =>
    obtain rfl := htype 6 ht
    obtain ⟨w, rfl⟩ := exists_wordBytes (Option.some.inj hlength).symm
    exact ⟨.i64 w, rfl, rfl, rfl⟩
  · next ht =>
    obtain rfl := htype 7 ht
    obtain ⟨w, rfl⟩ := exists_wordBytes (Option.some.inj hlength).symm
    exact ⟨.timepoint w, rfl, rfl, rfl⟩
  · next ht =>
    obtain rfl := htype 8 ht
    obtain ⟨w, rfl⟩ := exists_wordBytes (Option.some.inj hlength).symm
    exact ⟨.duration w, rfl, rfl, rfl⟩
  · next ht =>
    obtain rfl := htype 21 ht
    obtain ⟨w, rfl⟩ := exists_wordBytes (Option.some.inj hlength).symm
    exact ⟨.ledgerKeyNonce w, rfl, rfl, rfl⟩
  · next ht =>
    obtain rfl := htype 9 ht
    obtain ⟨hi, lo, rfl⟩ := exists_two_words (Option.some.inj hlength).symm
    exact ⟨.u128 hi lo, rfl, rfl, rfl⟩
  · next ht =>
    obtain rfl := htype 10 ht
    obtain ⟨hi, lo, rfl⟩ := exists_two_words (Option.some.inj hlength).symm
    exact ⟨.i128 hi lo, rfl, rfl, rfl⟩
  · next ht =>
    obtain rfl := htype 11 ht
    obtain ⟨hiHi, hiLo, loHi, loLo, rfl⟩ := exists_four_words (Option.some.inj hlength).symm
    exact ⟨.u256 hiHi hiLo loHi loLo, rfl, rfl, rfl⟩
  · next ht =>
    obtain rfl := htype 12 ht
    obtain ⟨hiHi, hiLo, loHi, loLo, rfl⟩ := exists_four_words (Option.some.inj hlength).symm
    exact ⟨.i256 hiHi hiLo loHi loLo, rfl, rfl, rfl⟩
  · cases hlength

/-- The numbers of the types of an error. -/
theorem exists_errorType {n : Nat} (hpos : 0 < n) (hle : n ≤ 9) : ∃ type : ScErrorType, type.number = n := by
  interval_cases n
  exacts [⟨.wasmVm, rfl⟩, ⟨.context, rfl⟩, ⟨.storage, rfl⟩, ⟨.object, rfl⟩, ⟨.crypto, rfl⟩, ⟨.events, rfl⟩, ⟨.budget, rfl⟩,
    ⟨.value, rfl⟩, ⟨.auth, rfl⟩]

/-- The numbers of the codes of an error. -/
theorem exists_errorCode {n : Nat} (hle : n ≤ 9) : ∃ code : ScErrorCode, code.number = n := by
  interval_cases n
  exacts [⟨.arithDomain, rfl⟩, ⟨.indexBounds, rfl⟩, ⟨.invalidInput, rfl⟩, ⟨.missingValue, rfl⟩, ⟨.existingValue, rfl⟩,
    ⟨.exceededLimit, rfl⟩, ⟨.invalidAction, rfl⟩, ⟨.internalError, rfl⟩, ⟨.unexpectedType, rfl⟩, ⟨.unexpectedSize, rfl⟩]

theorem uint32_toNat (w : BitVec 32) : uint32 w.toNat = w :=
  BitVec.eq_of_toNat_eq (ScReader.toNat_uint32_of_lt w.isLt)

/-- A clean error is one of the chain's. -/
theorem exists_ofScError {type code : BitVec 32} (h : (error type code).Clean) : ∃ e, ofScError e = .error type code := by
  by_cases hzero : type = 0
  · exact ⟨.contract code, by rw [hzero]; rfl⟩
  · obtain ⟨htype, hcode⟩ := h.resolve_left hzero
    have hpos : 0 < type.toNat := Nat.pos_of_ne_zero fun h0 => hzero (BitVec.eq_of_toNat_eq h0)
    obtain ⟨t, ht⟩ := exists_errorType hpos htype
    obtain ⟨c, hc⟩ := exists_errorCode hcode
    exact ⟨.other t c, by rw [ofScError, ht, hc, uint32_toNat, uint32_toNat]⟩

/-- A hash of the length of its kind belongs to an executable. -/
theorem exists_executable {kind : BitVec 32} {hash : Bytes} (hlength : hash.length = hashLength kind) (hkind : kind = 0 ∨ kind = 1) :
    ∃ executable, executableFields executable = (kind, hash) := by
  obtain rfl | rfl := hkind
  · exact ⟨.wasm ⟨hash, hlength⟩, rfl⟩
  · obtain rfl : hash = [] := List.length_eq_zero_iff.mp hlength
    exact ⟨.stellarAsset, rfl⟩

/-- Padding of zeros is the one that the format writes. -/
theorem padding_eq {data padding : Bytes} (hlength : padding.length = (4 - data.length % 4) % 4) (hzero : ∀ b ∈ padding, b = 0) :
    padding = zeros data :=
  List.eq_replicate_iff.mpr ⟨hlength, hzero⟩

/-- A value has bytes when its own lengths fit and its parts have bytes. -/
theorem sized_of_parts {v : ScVal} (hv : v.fitsWords = true) (hparts : ∀ part ∈ v.parts, part.Sized) : v.Sized := by
  intro depth w hw
  cases hw with
  | self => exact hv
  | part hpart h => exact hparts _ hpart _ _ h

theorem exists_map {α β : Type} {f : α → β} {P : α → Prop} {bs : List β} (h : ∀ b ∈ bs, ∃ a, P a ∧ f a = b) :
    ∃ as : List α, (∀ a ∈ as, P a) ∧ as.map f = bs := by
  induction bs with
  | nil => exact ⟨[], fun _ ha => absurd ha List.not_mem_nil, rfl⟩
  | cons b bs ih =>
    obtain ⟨a, ha, rfl⟩ := h b List.mem_cons_self
    obtain ⟨as, has, rfl⟩ := ih fun b' hb' => h b' (List.mem_cons_of_mem _ hb')
    exact ⟨a :: as, List.forall_mem_cons.mpr ⟨ha, has⟩, rfl⟩

/-- The entries whose keys and values are fields of values are those of entries of values. -/
theorem exists_entries {es : List (RawVal × RawVal)}
    (h : ∀ part ∈ es.flatMap fun e => [e.1, e.2], ∃ v : ScVal, v.Sized ∧ ofScVal v = part) :
    ∃ vs : List (ScVal × ScVal), (∀ part ∈ vs.flatMap fun e => [e.1, e.2], part.Sized) ∧ vs.map ofEntry = es := by
  have hentry : ∀ e ∈ es, ∃ v : ScVal × ScVal, (v.1.Sized ∧ v.2.Sized) ∧ ofEntry v = e := by
    intro e he
    obtain ⟨k, hk, hkey⟩ := h e.1 (List.mem_flatMap.mpr ⟨e, he, List.mem_cons_self⟩)
    obtain ⟨v, hv, hvalue⟩ := h e.2 (List.mem_flatMap.mpr ⟨e, he, List.mem_cons_of_mem _ List.mem_cons_self⟩)
    exact ⟨(k, v), ⟨hk, hv⟩, Prod.ext hkey hvalue⟩
  obtain ⟨vs, hsized, hmap⟩ := exists_map hentry
  refine ⟨vs, fun part hpart => ?_, hmap⟩
  obtain ⟨v, hv, hmem⟩ := List.mem_flatMap.mp hpart
  obtain rfl | rfl : part = v.1 ∨ part = v.2 := by simpa using hmem
  · exact (hsized v hv).1
  · exact (hsized v hv).2

/-- Clean fields are those of a value. -/
theorem exists_ofScVal {levels : Nat} : ∀ {w : RawVal}, EveryPart (fun u => u.Shaped ∧ u.Clean) levels w →
    ∃ v : ScVal, v.Sized ∧ ofScVal v = w := by
  induction levels with
  | zero => exact fun hw => hw.elim
  | succ levels ih =>
    rintro w ⟨⟨hshape, hclean⟩, hw⟩
    have hpart : ∀ part ∈ w.parts, ∃ v : ScVal, v.Sized ∧ ofScVal v = part := fun part hpart => ih (hw part hpart)
    have hleaf : ∀ v : ScVal, v.parts = [] → v.fitsWords = true → ofScVal v = w → ∃ v : ScVal, v.Sized ∧ ofScVal v = w := by
      intro v hparts hfits hv
      refine ⟨v, sized_of_parts hfits fun part hp => ?_, hv⟩
      rw [hparts] at hp
      exact absurd hp List.not_mem_nil
    clear hw ih
    cases w with
    | bool word =>
      obtain rfl | rfl := hclean
      · exact hleaf (.bool false) rfl rfl rfl
      · exact hleaf (.bool true) rfl rfl rfl
    | error type code =>
      obtain ⟨e, he⟩ := exists_ofScError hclean
      exact hleaf (.error e) rfl rfl he
    | fixed type data =>
      obtain ⟨v, hparts, hfits, hv⟩ := exists_ofScVal_fixed hshape
      exact hleaf v hparts hfits hv
    | opaqueData type data padding =>
      obtain ⟨htype, hlength, hpadding⟩ := hshape
      obtain rfl := padding_eq hpadding hclean
      obtain rfl | rfl | rfl := htype
      · exact hleaf (.bytes data) rfl (decide_eq_true hlength) rfl
      · exact hleaf (.string data) rfl (decide_eq_true hlength) rfl
      · exact hleaf (.symbol data) rfl (decide_eq_true hlength) rfl
    | vec items =>
      cases items with
      | none => exact hleaf (.vec none) rfl rfl rfl
      | some items =>
        obtain ⟨vs, hsized, rfl⟩ := exists_map hpart
        have hlength := hshape _ rfl
        rw [List.length_map] at hlength
        refine ⟨.vec (some vs), sized_of_parts (decide_eq_true hlength) hsized, ?_⟩
        rw [ofScVal, ofItems_eq]
    | map entries =>
      cases entries with
      | none => exact hleaf (.map none) rfl rfl rfl
      | some entries =>
        obtain ⟨vs, hsized, rfl⟩ := exists_entries hpart
        have hlength := hshape _ rfl
        rw [List.length_map] at hlength
        refine ⟨.map (some vs), sized_of_parts (decide_eq_true hlength) hsized, ?_⟩
        rw [ofScVal, ofEntries_eq]
    | address a => exact hleaf (.address a) rfl rfl rfl
    | contractInstance kind hash storage =>
      obtain ⟨executable, hexecutable⟩ := exists_executable hshape.1 hclean
      cases storage with
      | none => exact hleaf (.contractInstance executable none) rfl rfl (by rw [ofScVal, hexecutable])
      | some storage =>
        obtain ⟨vs, hsized, rfl⟩ := exists_entries hpart
        have hlength := hshape.2 _ rfl
        rw [List.length_map] at hlength
        refine ⟨.contractInstance executable (some vs), sized_of_parts (decide_eq_true hlength) hsized, ?_⟩
        rw [ofScVal, ofEntries_eq, hexecutable]

end RawVal

end Soroscan
